import VirtualGraph.Block.Simplify

/-!
# Truth values of conditions

SQL has three truth values. A conjunction takes the least and a disjunction the greatest value of
its members, where unknown lies between no and yes, and a negation exchanges no and yes. The truth
value of a condition is thus determined by those of its atoms: the tests that are no connective, no
negation and no constant.

Simplifying a condition keeps its truth value, whatever the values of the atoms are, as long as
opposite comparisons have opposite values.
-/

namespace VirtualGraph

/-- The truth values of SQL. -/
inductive Truth where
  | no
  | unknown
  | yes
  deriving DecidableEq

namespace Truth

def ofBool : Bool → Truth
  | true => yes
  | false => no

def not : Truth → Truth
  | no => yes
  | unknown => unknown
  | yes => no

def and : Truth → Truth → Truth
  | no, _ => no
  | _, no => no
  | yes, yes => yes
  | _, _ => unknown

def or : Truth → Truth → Truth
  | yes, _ => yes
  | _, yes => yes
  | no, no => no
  | _, _ => unknown

/-- The least of several truth values. -/
def all (ts : List Truth) : Truth := ts.foldr and yes

/-- The greatest of several truth values. -/
def any (ts : List Truth) : Truth := ts.foldr or no

@[simp] theorem not_not (t : Truth) : t.not.not = t := by cases t <;> rfl

@[simp] theorem ofBool_not (b : Bool) : ofBool (!b) = (ofBool b).not := by cases b <;> rfl

@[simp] theorem ofBool_eq_yes {b : Bool} : ofBool b = yes ↔ b = true := by cases b <;> simp [ofBool]

@[simp] theorem ofBool_eq_no {b : Bool} : ofBool b = no ↔ b = false := by cases b <;> simp [ofBool]

theorem and_eq_yes {s t : Truth} : s.and t = yes ↔ s = yes ∧ t = yes := by
  cases s <;> cases t <;> simp [and]

theorem and_eq_no {s t : Truth} : s.and t = no ↔ s = no ∨ t = no := by
  cases s <;> cases t <;> simp [and]

theorem or_eq_yes {s t : Truth} : s.or t = yes ↔ s = yes ∨ t = yes := by
  cases s <;> cases t <;> simp [or]

theorem or_eq_no {s t : Truth} : s.or t = no ↔ s = no ∧ t = no := by
  cases s <;> cases t <;> simp [or]

theorem all_eq_yes {ts : List Truth} : all ts = yes ↔ ∀ t ∈ ts, t = yes := by
  induction ts with
  | nil => simp [all]
  | cons t ts ih => simp [all, and_eq_yes, ← ih]

theorem all_eq_no {ts : List Truth} : all ts = no ↔ no ∈ ts := by
  induction ts with
  | nil => simp [all]
  | cons t ts ih =>
    rw [List.mem_cons, ← ih, eq_comm (b := t)]
    exact and_eq_no

theorem any_eq_yes {ts : List Truth} : any ts = yes ↔ yes ∈ ts := by
  induction ts with
  | nil => simp [any]
  | cons t ts ih =>
    rw [List.mem_cons, ← ih, eq_comm (b := t)]
    exact or_eq_yes

theorem any_eq_no {ts : List Truth} : any ts = no ↔ ∀ t ∈ ts, t = no := by
  induction ts with
  | nil => simp [any]
  | cons t ts ih => simp [any, or_eq_no, ← ih]

end Truth

namespace Connective

/-- The truth value of the member that decides the connective. -/
def decisive : Connective → Truth
  | and => .no
  | or => .yes

/-- The truth value of the connective of given members. -/
def value : Connective → List Truth → Truth
  | and => .all
  | or => .any

variable {k : Connective} {ts us : List Truth}

theorem value_eq_decisive : k.value ts = k.decisive ↔ k.decisive ∈ ts := by
  cases k with
  | and => exact Truth.all_eq_no
  | or => exact Truth.any_eq_yes

theorem value_eq_decisive_dual : k.value ts = k.dual.decisive ↔ ∀ t ∈ ts, t = k.dual.decisive := by
  cases k with
  | and => exact Truth.all_eq_yes
  | or => exact Truth.any_eq_no

/-- Two truth values are equal when they agree on being decisive, for either connective. -/
theorem truth_ext {s t : Truth} (h : s = k.decisive ↔ t = k.decisive)
    (hd : s = k.dual.decisive ↔ t = k.dual.decisive) : s = t := by
  cases k <;> cases s <;> cases t <;> simp_all [decisive, dual]

@[simp] theorem value_singleton (t : Truth) : k.value [t] = t := by
  cases k <;> cases t <;> rfl

@[simp] theorem value_nil : k.value [] = k.dual.decisive := by
  cases k <;> rfl

@[simp] theorem dual_dual (k : Connective) : k.dual.dual = k := by
  cases k <;> rfl

end Connective

namespace Condition

mutual

/-- The truth value of a condition, given the truth values of its atoms. -/
def truth (atom : Condition → Truth) : Condition → Truth
  | always => .yes
  | never => .no
  | and items => .all (truthEach atom items)
  | or items => .any (truthEach atom items)
  | not inner => (truth atom inner).not
  | compare op l r => atom (compare op l r)
  | sameVariable a b => atom (sameVariable a b)
  | sameValue l r => atom (sameValue l r)
  | isNull v => atom (isNull v)
  | langMatches x range => atom (langMatches x range)
  | like x pattern => atom (like x pattern)
termination_by structural x => x

def truthEach (atom : Condition → Truth) : List Condition → List Truth
  | [] => []
  | c :: rest => truth atom c :: truthEach atom rest
termination_by structural x => x

end

variable {atom : Condition → Truth} {k : Connective}

@[simp] theorem truthEach_eq_map (cs : List Condition) :
    truthEach atom cs = cs.map (truth atom) := by
  induction cs with
  | nil => rfl
  | cons c cs ih => simp [truthEach, ih]

@[simp] theorem truth_apply (items : List Condition) :
    (k.apply items).truth atom = k.value (items.map (truth atom)) := by
  cases k <;> simp [Connective.apply, Connective.value, truth]

@[simp] theorem truth_absorbing : k.absorbing.truth atom = k.decisive := by
  cases k <;> rfl

@[simp] theorem truth_neutral : k.neutral.truth atom = k.dual.decisive := by
  cases k <;> rfl

theorem eq_apply_of_members? {c : Condition} {items : List Condition}
    (h : k.members? c = some items) : c = k.apply items := by
  cases k <;> cases c <;> simp_all [Connective.members?, Connective.apply]

end Condition

theorem mem_addNew {seen cs : List Condition} {c : Condition} :
    c ∈ addNew seen cs ↔ c ∈ seen ∨ c ∈ cs := by
  fun_induction addNew seen cs with
  | case1 seen => simp
  | case2 seen d rest hd ih =>
    have hd : d ∈ seen := by simpa using hd
    rw [ih, List.mem_cons]
    refine ⟨Or.imp_right .inr, ?_⟩
    rintro (h | rfl | h)
    · exact .inl h
    · exact .inl hd
    · exact .inr h
  | case3 seen d rest hd ih => simp [ih, or_assoc]

namespace Condition

variable {atom : Condition → Truth} {k : Connective}

/-- The truth value of the connective of given conditions. -/
def valueOf (k : Connective) (atom : Condition → Truth) (cs : List Condition) : Truth :=
  k.value (cs.map (truth atom))

variable {cs ds : List Condition}

theorem valueOf_eq_decisive :
    valueOf k atom cs = k.decisive ↔ ∃ c ∈ cs, c.truth atom = k.decisive := by
  rw [valueOf, Connective.value_eq_decisive, List.mem_map]

theorem valueOf_eq_decisive_dual :
    valueOf k atom cs = k.dual.decisive ↔ ∀ c ∈ cs, c.truth atom = k.dual.decisive := by
  rw [valueOf, Connective.value_eq_decisive_dual, List.forall_mem_map]

theorem valueOf_congr
    (h : (∃ c ∈ cs, c.truth atom = k.decisive) ↔ ∃ c ∈ ds, c.truth atom = k.decisive)
    (hd : (∀ c ∈ cs, c.truth atom = k.dual.decisive) ↔ ∀ c ∈ ds, c.truth atom = k.dual.decisive) :
    valueOf k atom cs = valueOf k atom ds :=
  Connective.truth_ext (by rw [valueOf_eq_decisive, valueOf_eq_decisive, h])
    (by rw [valueOf_eq_decisive_dual, valueOf_eq_decisive_dual, hd])

/-- Each condition may be replaced by several that have its truth value together. -/
theorem valueOf_flatMap {f : Condition → List Condition}
    (hf : ∀ c ∈ cs, valueOf k atom (f c) = c.truth atom) :
    valueOf k atom (cs.flatMap f) = valueOf k atom cs := by
  apply valueOf_congr
  · constructor
    · rintro ⟨d, hd, ht⟩
      obtain ⟨c, hc, hd⟩ := List.mem_flatMap.mp hd
      exact ⟨c, hc, by rw [← hf c hc, valueOf_eq_decisive]; exact ⟨d, hd, ht⟩⟩
    · rintro ⟨c, hc, ht⟩
      rw [← hf c hc, valueOf_eq_decisive] at ht
      obtain ⟨d, hd, ht⟩ := ht
      exact ⟨d, List.mem_flatMap.mpr ⟨c, hc, hd⟩, ht⟩
  · constructor
    · intro h c hc
      rw [← hf c hc, valueOf_eq_decisive_dual]
      exact fun d hd => h d (List.mem_flatMap.mpr ⟨c, hc, hd⟩)
    · intro h d hd
      obtain ⟨c, hc, hd⟩ := List.mem_flatMap.mp hd
      have ht := h c hc
      rw [← hf c hc, valueOf_eq_decisive_dual] at ht
      exact ht d hd

/-- The members of a connective, with nested connectives of the same kind opened. -/
def opened (k : Connective) (items : List Condition) : List Condition :=
  items.flatMap fun c => (k.members? c).getD [c]

theorem valueOf_opened (items : List Condition) :
    valueOf k atom (opened k items) = valueOf k atom items := by
  apply valueOf_flatMap
  intro c _
  cases hc : k.members? c with
  | none => simp [valueOf]
  | some ms => simp [valueOf, eq_apply_of_members? hc]

/-- Leaving out repetitions and members without effect. -/
theorem valueOf_distinct {p : Condition → Bool}
    (hp : ∀ c ∈ cs, p c = false → c.truth atom = k.dual.decisive) :
    valueOf k atom (addNew [] (cs.filter p)) = valueOf k atom cs := by
  have hne : k.dual.decisive ≠ k.decisive := by cases k <;> decide
  apply valueOf_congr
  · simp only [mem_addNew, List.not_mem_nil, false_or, List.mem_filter]
    constructor
    · rintro ⟨c, ⟨hc, -⟩, ht⟩
      exact ⟨c, hc, ht⟩
    · rintro ⟨c, hc, ht⟩
      refine ⟨c, ⟨hc, ?_⟩, ht⟩
      cases hpc : p c with
      | true => rfl
      | false => exact absurd ((hp c hc hpc).symm.trans ht) hne
  · simp only [mem_addNew, List.not_mem_nil, false_or, List.mem_filter]
    constructor
    · intro h c hc
      cases hpc : p c with
      | true => exact h c ⟨hc, hpc⟩
      | false => exact hp c hc hpc
    · exact fun h c hc => h c hc.1

/-- Whether a member of the dual kind shares one of its own members with a list. -/
def isAbsorbed (k : Connective) (flat : List Condition) (c : Condition) : Bool :=
  ((k.dual.members? c).getD []).any flat.contains

theorem exists_of_isAbsorbed {flat : List Condition} {c : Condition}
    (h : isAbsorbed k flat c = true) :
    ∃ ms, c = k.dual.apply ms ∧ ∃ d ∈ ms, d ∈ flat ∧ sizeOf d < sizeOf c := by
  rw [isAbsorbed, List.any_eq_true] at h
  obtain ⟨d, hd, hflat⟩ := h
  cases hc : k.dual.members? c with
  | none => simp [hc] at hd
  | some ms =>
    rw [hc, Option.getD_some] at hd
    obtain rfl := eq_apply_of_members? hc
    refine ⟨ms, rfl, d, hd, by simpa using hflat, ?_⟩
    have := List.sizeOf_lt_of_mem hd
    cases k <;> simp [Connective.apply, Connective.dual] <;> omega

/-- Leaving out the members that another member absorbs. What absorbs a member is smaller than it,
so some member that is kept is behind every chain of absorptions. -/
theorem valueOf_absorbed (flat : List Condition) :
    valueOf k atom (flat.filter fun c => !isAbsorbed k flat c) = valueOf k atom flat := by
  apply valueOf_congr
  · constructor
    · rintro ⟨c, hc, ht⟩
      exact ⟨c, (List.mem_filter.mp hc).1, ht⟩
    · rintro ⟨c, hc, ht⟩
      induction hn : sizeOf c using Nat.strongRecOn generalizing c with
      | ind n ih =>
        subst hn
        cases ha : isAbsorbed k flat c with
        | false => exact ⟨c, List.mem_filter.mpr ⟨hc, by simp [ha]⟩, ht⟩
        | true =>
          obtain ⟨ms, rfl, d, hd, hflat, hlt⟩ := exists_of_isAbsorbed ha
          have hall := (Connective.value_eq_decisive_dual (k := k.dual)).mp (by simpa using ht)
          have hd : d.truth atom = k.decisive := by simpa using hall _ (List.mem_map_of_mem hd)
          exact ih _ hlt d hflat hd rfl
  · constructor
    · intro h c hc
      induction hn : sizeOf c using Nat.strongRecOn generalizing c with
      | ind n ih =>
        subst hn
        cases ha : isAbsorbed k flat c with
        | false => exact h c (List.mem_filter.mpr ⟨hc, by simp [ha]⟩)
        | true =>
          obtain ⟨ms, rfl, d, hd, hflat, hlt⟩ := exists_of_isAbsorbed ha
          rw [truth_apply, Connective.value_eq_decisive]
          exact List.mem_map.mpr ⟨d, hd, ih _ hlt d hflat rfl⟩
    · exact fun h c hc => h c (List.mem_filter.mp hc).1

/-- What is left of the members of a connective: each once, and none that has no effect. -/
def kept (k : Connective) (items : List Condition) : List Condition :=
  let flat := addNew [] ((opened k items).filter (· ≠ k.neutral))
  flat.filter fun c => !isAbsorbed k flat c

theorem mem_opened_of_mem_kept {items : List Condition} {c : Condition} (h : c ∈ kept k items) :
    c ∈ opened k items := by
  have hflat := (List.mem_filter.mp h).1
  rw [mem_addNew, List.mem_filter] at hflat
  obtain hnil | ⟨hopened, -⟩ := hflat
  · exact absurd hnil List.not_mem_nil
  · exact hopened

theorem valueOf_kept (items : List Condition) :
    valueOf k atom (kept k items) = valueOf k atom items :=
  calc valueOf k atom (kept k items)
    _ = valueOf k atom (addNew [] ((opened k items).filter (· ≠ k.neutral))) := valueOf_absorbed _
    _ = valueOf k atom (opened k items) := by
      apply valueOf_distinct
      intro c _ hc
      obtain rfl : c = k.neutral := by simpa using hc
      exact truth_neutral
    _ = valueOf k atom items := valueOf_opened items

/-- What a connective comes to: a member that decides it, or else what is left of its members. -/
theorem connect_cases (k : Connective) (items : List Condition) :
    (k.absorbing ∈ opened k items ∧ connect k items = k.absorbing) ∨
    (kept k items = [] ∧ connect k items = k.neutral) ∨
    (∃ c, k.absorbing ∉ opened k items ∧ kept k items = [c] ∧ connect k items = c) ∨
    (k.absorbing ∉ opened k items ∧ 2 ≤ (kept k items).length ∧
      connect k items = k.apply (kept k items)) := by
  unfold connect
  dsimp only
  split
  · rename_i habsorbing
    exact .inl ⟨List.contains_iff_mem.mp habsorbing, rfl⟩
  · rename_i habsorbing
    have habsorbing : k.absorbing ∉ opened k items :=
      fun h => habsorbing (List.contains_iff_mem.mpr h)
    split
    · rename_i hkept
      exact .inr (.inl ⟨hkept, rfl⟩)
    · rename_i c hkept
      exact .inr (.inr (.inl ⟨c, habsorbing, hkept, rfl⟩))
    · rename_i hnil hsingle
      refine .inr (.inr (.inr ⟨habsorbing, ?_, rfl⟩))
      rcases hkept : kept k items with _ | ⟨c, _ | ⟨d, rest⟩⟩
      · exact absurd hkept hnil
      · exact absurd hkept (hsingle c)
      · exact Nat.le_add_left 2 rest.length

theorem truth_connect (k : Connective) (items : List Condition) :
    (connect k items).truth atom = valueOf k atom items := by
  obtain ⟨habsorbing, heq⟩ | ⟨hkept, heq⟩ | ⟨c, -, hkept, heq⟩ | ⟨-, -, heq⟩ :=
    connect_cases k items
  · rw [heq, truth_absorbing, ← valueOf_opened items]
    exact (valueOf_eq_decisive.mpr ⟨k.absorbing, habsorbing, truth_absorbing⟩).symm
  · rw [heq, ← valueOf_kept items, hkept, truth_neutral]
    exact Connective.value_nil.symm
  · rw [heq, ← valueOf_kept items, hkept]
    exact (Connective.value_singleton _).symm
  · rw [heq, ← valueOf_kept items]
    exact truth_apply _

theorem truth_negate (hatom : ∀ op l r, atom (compare op.negate l r) = (atom (compare op l r)).not)
    (c : Condition) : (negate c).truth atom = (c.truth atom).not := by
  cases c with
  | not inner => simp [negate, truth]
  | compare op l r => exact hatom op l r
  | _ => rfl

mutual

/-- Simplification keeps the truth value. -/
theorem truth_simplify
    (hatom : ∀ op l r, atom (compare op.negate l r) = (atom (compare op l r)).not) :
    ∀ c : Condition, (simplify c).truth atom = c.truth atom
  | and items => by
    rw [simplify, truth_connect, valueOf, map_truth_simplifyEach hatom items]
    exact (truth_apply (k := .and) items).symm
  | or items => by
    rw [simplify, truth_connect, valueOf, map_truth_simplifyEach hatom items]
    exact (truth_apply (k := .or) items).symm
  | not inner => by
    rw [simplify, truth_negate hatom, truth_simplify hatom inner, truth]
  | always => rfl
  | never => rfl
  | compare _ _ _ => rfl
  | sameVariable _ _ => rfl
  | sameValue _ _ => rfl
  | isNull _ => rfl
  | langMatches _ _ => rfl
  | like _ _ => rfl

theorem map_truth_simplifyEach
    (hatom : ∀ op l r, atom (compare op.negate l r) = (atom (compare op l r)).not) :
    ∀ cs : List Condition, (simplifyEach cs).map (truth atom) = cs.map (truth atom)
  | [] => rfl
  | c :: rest => by
    rw [simplifyEach, List.map_cons, List.map_cons, truth_simplify hatom c,
      map_truth_simplifyEach hatom rest]

end

/-- The members of a conjunction hold together when it does. -/
theorem valueOf_conjuncts (c : Condition) : valueOf .and atom (conjuncts c) = c.truth atom := by
  cases c with
  | always => rfl
  | and items => exact (truth_apply (k := .and) items).symm
  | _ => exact Connective.value_singleton _

/-- Simplifying a list of conditions keeps the truth value of their conjunction. -/
theorem valueOf_simplifyAll
    (hatom : ∀ op l r, atom (compare op.negate l r) = (atom (compare op l r)).not)
    (cs : List Condition) : valueOf .and atom (simplifyAll cs) = valueOf .and atom cs := by
  have heach : valueOf .and atom (simplifyEach cs) = valueOf .and atom cs := by
    rw [valueOf, map_truth_simplifyEach hatom, valueOf]
  rw [← heach]
  show valueOf .and atom (if (simplifyEach cs).contains never then [never]
    else addNew [] ((simplifyEach cs).flatMap conjuncts)) = _
  split
  · rename_i hc
    exact (valueOf_eq_decisive (k := .and).mpr ⟨never, by simpa using hc, rfl⟩).symm
  · have hnew : ∀ ds : List Condition, valueOf .and atom (addNew [] ds) = valueOf .and atom ds := by
      intro ds
      exact valueOf_congr (by simp [mem_addNew]) (by simp [mem_addNew])
    rw [hnew, valueOf_flatMap fun c _ => valueOf_conjuncts c]

/-- Simplification keeps the truth value of a condition, and that of conditions that all have to
hold, for all truth values of the atoms in which opposite comparisons have opposite values. -/
theorem simplify_preserves_truth (atom : Condition → Truth)
    (hatom : ∀ op l r, atom (compare op.negate l r) = (atom (compare op l r)).not) :
    (∀ c : Condition, c.simplify.truth atom = c.truth atom) ∧
      ∀ cs : List Condition,
        Truth.all ((simplifyAll cs).map (truth atom)) = Truth.all (cs.map (truth atom)) :=
  ⟨truth_simplify hatom, valueOf_simplifyAll hatom⟩

/-- A comparison that is turned round, an absorbed disjunction and a constant go away where one atom
is unknown, and what is left is unknown as before. -/
theorem simplify_preserves_truth_unknown :
    let x := Scalar.column 0
    let y := Scalar.constant "5" .integer
    let atom : Condition → Truth := fun c =>
      if c = compare .lt x y then .yes
      else if c = compare .ge x y ∨ c = isNull 1 then .no
      else .unknown
    let c := or [not (and [compare .lt x y, sameVariable 0 1]),
      and [isNull 1, or [isNull 2, isNull 1]], never]
    let d := or [not (and [compare .lt x y, sameVariable 0 1]), isNull 1]
    (∀ op l r, atom (compare op.negate l r) = (atom (compare op l r)).not) ∧
      c.simplify = d ∧ d.truth atom = c.truth atom ∧ c.truth atom = .unknown ∧
      simplifyAll [c, and [always, not (compare .ge x y)]] = [d, compare .lt x y] ∧
      Truth.all ([d, compare .lt x y].map (truth atom)) =
        Truth.all ([c, and [always, not (compare .ge x y)]].map (truth atom)) := by
  intro x y atom c d
  have hatom : ∀ op l r, atom (compare op.negate l r) = (atom (compare op l r)).not := by
    intro op l r
    by_cases hl : l = x
    · by_cases hr : r = y
      · cases op <;> simp [atom, hl, hr, Comparator.negate, Truth.not]
      · simp [atom, hr, Truth.not]
    · simp [atom, hl, Truth.not]
  obtain ⟨hone, hall⟩ := simplify_preserves_truth atom hatom
  have hc : c.simplify = d := by decide
  have hcs : simplifyAll [c, and [always, not (compare .ge x y)]] = [d, compare .lt x y] := by
    decide
  exact ⟨hatom, hc, hc ▸ hone c, by decide, hcs, hcs ▸ hall _⟩

end Condition

end VirtualGraph
