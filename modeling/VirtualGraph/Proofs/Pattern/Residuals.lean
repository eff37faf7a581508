import VirtualGraph.Proofs.Pattern.Constants

/-!
# What a comparison leaves over

A comparison takes two patterns apart in rounds. A round cancels equal characters at the two ends,
and where that gives nothing it cuts both sides after their leading runs and settles the runs, or
settles all that is left. Every round but the last leaves less than it was given, so the rounds come
to an end, and the pairs that they leave over are pieces of the two patterns in their order.

Exchanging the two patterns exchanges the members of all pairs, and nothing is left over when a
pattern is compared with itself.
-/

namespace VirtualGraph

namespace Comparison

/-- The outcome for the pairs that are left over, or for none if there was a contradiction. -/
def ofPairs : Option (List (Pattern × Pattern)) → Comparison
  | none => disjoint
  | some pairs => residual pairs

/-- The outcome with the two sides exchanged. -/
def swap : Comparison → Comparison
  | disjoint => disjoint
  | residual pairs => residual (pairs.map Prod.swap)

@[simp] theorem neverMatch_swap (c : Comparison) : c.swap.neverMatch = c.neverMatch := by
  cases c <;> rfl

@[simp] theorem residuals_swap (c : Comparison) : c.swap.residuals = c.residuals.map Prod.swap := by
  cases c <;> rfl

theorem swap_ofPairs (pairs : Option (List (Pattern × Pattern))) :
    (ofPairs pairs).swap = ofPairs (pairs.map (List.map Prod.swap)) := by
  cases pairs <;> rfl

end Comparison

namespace Pattern

variable {p q : Pattern} {l r l' r' : List Symbol} {escapedL escapedR : Bool}
variable {pairs : List (Pattern × Pattern)} {rest : Option (List Symbol × List Symbol)}

theorem compare_eq_ofPairs (p q : Pattern) :
    p.compare q = .ofPairs (reduce p.escaped q.escaped p.symbols q.symbols) := by
  unfold compare
  cases reduce p.escaped q.escaped p.symbols q.symbols <;> rfl

/-! ### Rounds -/

/-- One round of a comparison: the pairs that it leaves over, and what remains to be compared
unless it was the last. -/
def round (escapedL escapedR : Bool) (l r : List Symbol) :
    Option (List (Pattern × Pattern) × Option (List Symbol × List Symbol)) :=
  (cancelBoth l r).bind fun (l', r') =>
    if l' = [] ∧ r' = [] then some ([], none)
    else if (l' = [] ∧ r'.any Symbol.isChar) ∨ (r' = [] ∧ l'.any Symbol.isChar) then none
    else if l'.length + r'.length < l.length + r.length then some ([], some (l', r'))
    else if ¬(escapedL ∧ escapedR) then (settle ⟨escapedL, l'⟩ ⟨escapedR, r'⟩).map (·, none)
    else if (afterRun l').head? ≠ (afterRun r').head? then none
    else if run l' = [] ∧ run r' = [] then (settle ⟨escapedL, l'⟩ ⟨escapedR, r'⟩).map (·, none)
    else (settle ⟨true, run l'⟩ ⟨true, run r'⟩).map (·, some (afterRun l', afterRun r'))

/-- The pairs that are left over after at most so many rounds, if these are enough. -/
def rounds (escapedL escapedR : Bool) : Nat → List Symbol → List Symbol →
    Option (Option (List (Pattern × Pattern)))
  | 0, _, _ => none
  | n + 1, l, r =>
    match round escapedL escapedR l r with
    | none => some none
    | some (pairs, none) => some (some pairs)
    | some (pairs, some (l', r')) =>
      (rounds escapedL escapedR n l' r').map fun others => others.map (pairs ++ ·)

/-- A comparison is a round, followed by a comparison of what remains. -/
theorem reduce_eq_round (escapedL escapedR : Bool) (l r : List Symbol) :
    reduce escapedL escapedR l r = (round escapedL escapedR l r).bind fun found =>
      found.2.elim (some found.1) fun rest =>
        (reduce escapedL escapedR rest.1 rest.2).map (found.1 ++ ·) := by
  rw [reduce_eq, round, Option.bind_assoc]
  refine congrArg _ (funext fun m => ?_)
  dsimp only
  split
  · rfl
  split
  · rfl
  split
  · simp
  split
  · rw [Option.bind_map]
    exact (Option.bind_fun_some _).symm
  split
  · rfl
  split
  · rw [Option.bind_map]
    exact (Option.bind_fun_some _).symm
  · rw [Option.bind_map]
    rfl

/-- What a round does to its two sides. It cancels characters at both ends, and then ends the
comparison, settles what is left of the sides or their runs, or leaves the rest to be compared. -/
theorem round_cases (h : round escapedL escapedR l r = some (pairs, rest)) :
    ∃ l' r' : List Symbol, l'.Sublist l ∧ r'.Sublist r ∧
      ((pairs = [] ∧ rest = none) ∨
        (pairs = [] ∧ rest = some (l', r') ∧ l'.length + r'.length < l.length + r.length) ∨
        (settle ⟨escapedL, l'⟩ ⟨escapedR, r'⟩ = some pairs ∧ rest = none) ∨
        (settle ⟨true, run l'⟩ ⟨true, run r'⟩ = some pairs ∧
          rest = some (afterRun l', afterRun r') ∧ ¬(run l' = [] ∧ run r' = []))) := by
  obtain ⟨⟨l', r'⟩, hc, h⟩ := Option.bind_eq_some_iff.mp h
  obtain ⟨pre, post, hl, hr⟩ := exists_of_cancelBoth hc
  have hleft : l'.Sublist l := hl ▸ List.infix_append _ l' _ |>.sublist
  have hright : r'.Sublist r := hr ▸ List.infix_append _ r' _ |>.sublist
  refine ⟨l', r', hleft, hright, ?_⟩
  dsimp only at h
  split at h
  · cases h
    exact .inl ⟨rfl, rfl⟩
  split at h
  · cases h
  split at h
  · rename_i hlt
    cases h
    exact .inr (.inl ⟨rfl, rfl, hlt⟩)
  split at h
  · obtain ⟨found, hfound, heq⟩ := Option.map_eq_some_iff.mp h
    cases heq
    exact .inr (.inr (.inl ⟨hfound, rfl⟩))
  split at h
  · cases h
  split at h
  · obtain ⟨found, hfound, heq⟩ := Option.map_eq_some_iff.mp h
    cases heq
    exact .inr (.inr (.inl ⟨hfound, rfl⟩))
  · rename_i hruns
    obtain ⟨found, hfound, heq⟩ := Option.map_eq_some_iff.mp h
    cases heq
    exact .inr (.inr (.inr ⟨hfound, rfl, hruns⟩))

/-- A round that is not the last makes the two sides shorter. -/
theorem length_of_round (h : round escapedL escapedR l r = some (pairs, some (l', r'))) :
    l'.length + r'.length < l.length + r.length := by
  obtain ⟨x, y, hx, hy, ⟨-, hrest⟩ | ⟨-, hrest, hlt⟩ | ⟨-, hrest⟩ | ⟨-, hrest, hruns⟩⟩ :=
    round_cases h
  · cases hrest
  · cases hrest
    exact hlt
  · cases hrest
  · -- The runs are cut off, and at least one of them is not empty.
    cases hrest
    have hleft := length_afterRun x
    have hright := length_afterRun y
    have hx := hx.length_le
    have hy := hy.length_le
    simp only [← List.length_eq_zero_iff] at hruns
    omega

/-- More rounds than there are symbols are enough. -/
theorem rounds_eq_reduce {n : Nat} (h : l.length + r.length < n) :
    rounds escapedL escapedR n l r = some (reduce escapedL escapedR l r) := by
  induction n generalizing l r with
  | zero => cases h
  | succ n ih =>
    rw [rounds, reduce_eq_round]
    split
    · rename_i hround
      rw [hround]
      rfl
    · rename_i hround
      rw [hround]
      rfl
    · rename_i hround
      have hlt := length_of_round hround
      rw [hround, ih (by omega)]
      rfl

/-- What holds of the last round and is carried back through every other one holds of a whole
comparison. -/
theorem reduce_induction {P : List Symbol → List Symbol → List (Pattern × Pattern) → Prop}
    (last : ∀ l r pairs, round escapedL escapedR l r = some (pairs, none) → P l r pairs)
    (next : ∀ l r pairs l' r' others, round escapedL escapedR l r = some (pairs, some (l', r')) →
      P l' r' others → P l r (pairs ++ others))
    (h : reduce escapedL escapedR l r = some pairs) : P l r pairs := by
  generalize hn : l.length + r.length = n
  induction n using Nat.strongRecOn generalizing l r pairs with
  | ind n ih =>
    rw [reduce_eq_round] at h
    obtain ⟨⟨found, rest⟩, hround, h⟩ := Option.bind_eq_some_iff.mp h
    cases rest with
    | none =>
      cases h
      exact last l r found hround
    | some rest =>
      obtain ⟨others, hothers, rfl⟩ := Option.map_eq_some_iff.mp h
      exact next l r found _ _ others hround
        (ih _ (hn ▸ length_of_round hround) hothers rfl)

/-! ### The pairs that are left over -/

/-- A pair that only the values of slots can decide. -/
structure Undecided (p q : Pattern) : Prop where
  slots : (p.isConstant && q.isConstant) = false
  different : p ≠ q
  left : (p.isEmpty && q.hasText) = false
  right : (q.isEmpty && p.hasText) = false

theorem settle_cases (h : settle p q = some pairs) :
    pairs = [] ∨ pairs = [(p, q)] ∧ Undecided p q := by
  unfold settle at h
  split at h
  · split at h <;> cases h
    exact .inl rfl
  split at h
  · cases h
  split at h
  · cases h
    exact .inl rfl
  · rename_i hslots hempty hne
    cases h
    rw [Bool.or_eq_true, not_or, Bool.not_eq_true, Bool.not_eq_true] at hempty
    exact .inr ⟨rfl, Bool.eq_false_iff.mpr hslots, hne, hempty.1, hempty.2⟩

theorem settle_self (p : Pattern) : settle p p = some [] := by
  unfold settle
  split
  · exact if_pos rfl
  · rename_i hslots
    have hempty : p.isEmpty = false := by
      refine Bool.eq_false_iff.mpr fun hnil => hslots ?_
      rw [isConstant, List.isEmpty_iff.mp hnil]
      rfl
    rw [hempty, Bool.false_and, Bool.or_self, if_neg Bool.false_ne_true, if_pos rfl]

/-- The symbols of patterns, one pattern after the other. -/
def symbolsAll (ps : List Pattern) : List Symbol := ps.flatMap symbols

/-- The left members of pairs are pieces of one side and the right members of the other, in their
order. -/
def PiecesOf (l r : List Symbol) (pairs : List (Pattern × Pattern)) : Prop :=
  (symbolsAll (pairs.map Prod.fst)).Sublist l ∧ (symbolsAll (pairs.map Prod.snd)).Sublist r

theorem piecesOf_nil (l r : List Symbol) : PiecesOf l r [] :=
  ⟨List.nil_sublist l, List.nil_sublist r⟩

theorem PiecesOf.mono (h : PiecesOf l' r' pairs) (hl : l'.Sublist l)
    (hr : r'.Sublist r) : PiecesOf l r pairs :=
  ⟨h.1.trans hl, h.2.trans hr⟩

theorem PiecesOf.append {others : List (Pattern × Pattern)} {x y : List Symbol}
    (h : PiecesOf l r pairs) (h' : PiecesOf x y others) :
    PiecesOf (l ++ x) (r ++ y) (pairs ++ others) := by
  rw [PiecesOf, List.map_append, List.map_append, symbolsAll, symbolsAll, List.flatMap_append,
    List.flatMap_append]
  exact ⟨h.1.append h'.1, h.2.append h'.2⟩

theorem piecesOf_settle (h : settle p q = some pairs) : PiecesOf p.symbols q.symbols pairs := by
  obtain rfl | ⟨rfl, -⟩ := settle_cases h
  · exact piecesOf_nil _ _
  · rw [PiecesOf, List.map_singleton, List.map_singleton, symbolsAll, symbolsAll,
      List.flatMap_singleton, List.flatMap_singleton]
    exact ⟨List.Sublist.refl _, List.Sublist.refl _⟩

theorem piecesOf_last (h : round escapedL escapedR l r = some (pairs, none)) :
    PiecesOf l r pairs := by
  obtain ⟨x, y, hx, hy, ⟨rfl, -⟩ | ⟨-, hrest, -⟩ | ⟨hpairs, -⟩ | ⟨-, hrest, -⟩⟩ := round_cases h
  · exact piecesOf_nil l r
  · cases hrest
  · exact (piecesOf_settle hpairs).mono hx hy
  · cases hrest

/-- The pairs of a round stand before what remains to be compared. -/
theorem piecesOf_next {others : List (Pattern × Pattern)}
    (h : round escapedL escapedR l r = some (pairs, some (l', r')))
    (hrest : PiecesOf l' r' others) : PiecesOf l r (pairs ++ others) := by
  obtain ⟨x, y, hx, hy, ⟨-, heq⟩ | ⟨rfl, heq, -⟩ | ⟨-, heq⟩ | ⟨hpairs, heq, -⟩⟩ := round_cases h
  · cases heq
  · cases heq
    exact hrest.mono hx hy
  · cases heq
  · cases heq
    -- The pair is made of the runs, which stand before all that comes after them.
    have happend := (piecesOf_settle hpairs).append hrest
    rw [run_append_afterRun, run_append_afterRun] at happend
    exact happend.mono hx hy

theorem undecided_of_round (h : round escapedL escapedR l r = some (pairs, rest)) :
    ∀ pair ∈ pairs, Undecided pair.1 pair.2 := by
  have hsettle : ∀ {p q}, settle p q = some pairs → ∀ pair ∈ pairs, Undecided pair.1 pair.2 := by
    intro p q hpairs pair hpair
    obtain rfl | ⟨rfl, hundecided⟩ := settle_cases hpairs
    · exact absurd hpair List.not_mem_nil
    · obtain rfl := List.mem_singleton.mp hpair
      exact hundecided
  obtain ⟨x, y, -, -, ⟨rfl, -⟩ | ⟨rfl, -⟩ | ⟨hpairs, -⟩ | ⟨hpairs, -⟩⟩ := round_cases h
  · exact fun _ hpair => absurd hpair List.not_mem_nil
  · exact fun _ hpair => absurd hpair List.not_mem_nil
  · exact hsettle hpairs
  · exact hsettle hpairs

/-- The pairs of a comparison are pieces of its two sides. -/
theorem piecesOf_reduce (h : reduce escapedL escapedR l r = some pairs) : PiecesOf l r pairs :=
  reduce_induction (P := PiecesOf) (fun _ _ _ => piecesOf_last)
    (fun _ _ _ _ _ _ => piecesOf_next) h

theorem undecided_of_reduce (h : reduce escapedL escapedR l r = some pairs) :
    ∀ pair ∈ pairs, Undecided pair.1 pair.2 :=
  reduce_induction (P := fun _ _ pairs => ∀ pair ∈ pairs, Undecided pair.1 pair.2)
    (fun _ _ _ hround => undecided_of_round hround)
    (fun _ _ _ _ _ _ hround ih => List.forall_mem_append.mpr ⟨undecided_of_round hround, ih⟩) h

/-! ### The two sides change places -/

theorem compare_comm (p q : Pattern) : q.compare p = (p.compare q).swap := by
  rw [compare_eq_ofPairs, compare_eq_ofPairs, Comparison.swap_ofPairs, reduce_comm]

theorem cancel_self (l : List Symbol) : ∃ rest, cancel l l = some (rest, rest) := by
  induction l with
  | nil => exact ⟨[], rfl⟩
  | cons x l ih =>
    cases x with
    | char c => exact ih.imp fun rest hrest => by rw [cancel, if_pos rfl, hrest]
    | slot s => exact ⟨_, rfl⟩

theorem cancelBoth_self (l : List Symbol) : ∃ rest, cancelBoth l l = some (rest, rest) := by
  obtain ⟨m, hm⟩ := cancel_self l
  obtain ⟨rest, hrest⟩ := cancel_self m.reverse
  refine ⟨rest.reverse, ?_⟩
  rw [cancelBoth, hm, Option.bind_some]
  show cancelEnd m m = some (rest.reverse, rest.reverse)
  rw [cancelEnd, hrest, Option.map_some]

/-- A round in which both sides are the same leaves no pair over, and both sides the same. -/
theorem round_self (escaped : Bool) (l : List Symbol) :
    ∃ rest, round escaped escaped l l = some ([], rest) ∧ ∀ m ∈ rest, m.1 = m.2 := by
  obtain ⟨l', hl'⟩ := cancelBoth_self l
  rw [round, hl', Option.bind_some]
  simp only [settle_self, Option.map_some, ne_eq, not_true_eq_false, if_false, and_self, or_self]
  by_cases hnil : l' = []
  · exact ⟨none, if_pos hnil, fun _ hm => by cases hm⟩
  rw [if_neg hnil, if_neg (mt And.left hnil)]
  split
  · exact ⟨_, rfl, fun m hm => by cases hm; rfl⟩
  split
  · exact ⟨_, rfl, fun m hm => by cases hm⟩
  split
  · exact ⟨_, rfl, fun m hm => by cases hm⟩
  · exact ⟨_, rfl, fun m hm => by cases hm; rfl⟩

theorem reduce_self (escaped : Bool) (l : List Symbol) : reduce escaped escaped l l = some [] := by
  generalize hn : l.length + l.length = n
  induction n using Nat.strongRecOn generalizing l with
  | ind n ih =>
    obtain ⟨rest, hround, hsame⟩ := round_self escaped l
    rw [reduce_eq_round, hround, Option.bind_some]
    cases rest with
    | none => rfl
    | some m =>
      obtain ⟨m, m'⟩ := m
      obtain rfl : m = m' := hsame _ rfl
      rw [Option.elim_some, ih _ (hn ▸ length_of_round hround) m rfl]
      rfl

end Pattern

namespace BoundTerm

theorem canEqual_comm (a b : BoundTerm) : b.canEqual a = a.canEqual b := by
  rw [canEqual, canEqual, Pattern.compare_comm, Comparison.neverMatch_swap, Bool.beq_comm]

end BoundTerm

namespace Pattern

/-- The comparison is symmetric and reflexive. With the patterns exchanged it gives the same answer
with the members of every pair exchanged, so whether two terms may be equal does not depend on their
order; and a pattern always matches itself. -/
theorem compare_symmetric_reflexive (p q : Pattern) :
    (q.compare p = (p.compare q).swap ∧
      (q.compare p).neverMatch = (p.compare q).neverMatch ∧
      (q.compare p).residuals = (p.compare q).residuals.map Prod.swap) ∧
    (∀ a b : BoundTerm, b.canEqual a = a.canEqual b) ∧ (p.compare p).alwaysMatch = true := by
  refine ⟨⟨compare_comm p q, ?_, ?_⟩, BoundTerm.canEqual_comm, ?_⟩
  · rw [compare_comm, Comparison.neverMatch_swap]
  · rw [compare_comm, Comparison.residuals_swap]
  · rw [compare_eq_ofPairs, reduce_self]
    rfl

/-! ### How far a comparison goes -/

/-- The slots of a pattern, in order. -/
def slots (p : Pattern) : List Slot := p.symbols.filterMap Symbol.slot?

/-- The number of characters and slots of a pattern. -/
def size (p : Pattern) : Nat := p.chars.length + p.slots.length

/-- The comparison of two patterns within a number of rounds, if these are enough. -/
def compareWithin (n : Nat) (p q : Pattern) : Option Comparison :=
  (rounds p.escaped q.escaped n p.symbols q.symbols).map .ofPairs

theorem size_eq_length (p : Pattern) : p.size = p.symbols.length := by
  rw [size, chars, slots]
  induction p.symbols with
  | nil => rfl
  | cons x symbols ih =>
    simp only [List.filterMap_cons, List.length_cons]
    cases x <;> simp only [Symbol.char?, Symbol.slot?, List.length_cons] <;> omega

/-- The number of characters and slots of several patterns. -/
def sizeAll : List Pattern → Nat
  | [] => 0
  | p :: rest => p.size + sizeAll rest

theorem sizeAll_eq_length (ps : List Pattern) : sizeAll ps = (symbolsAll ps).length := by
  induction ps with
  | nil => rfl
  | cons p ps ih =>
    rw [sizeAll, ih, size_eq_length, symbolsAll, symbolsAll, List.flatMap_cons, List.length_append]

theorem flatMap_slots (ps : List Pattern) :
    ps.flatMap slots = (symbolsAll ps).filterMap Symbol.slot? :=
  List.filterMap_flatMap.symm

/-- The pairs of a comparison are none if the patterns are disjoint, and pieces of the two patterns
otherwise. -/
theorem piecesOf_residuals (p q : Pattern) :
    PiecesOf p.symbols q.symbols (p.compare q).residuals := by
  rw [compare_eq_ofPairs]
  cases h : reduce p.escaped q.escaped p.symbols q.symbols with
  | none => exact piecesOf_nil _ _
  | some pairs => exact piecesOf_reduce h

theorem undecided_residuals (p q : Pattern) :
    ∀ pair ∈ (p.compare q).residuals, Undecided pair.1 pair.2 := by
  rw [compare_eq_ofPairs]
  cases h : reduce p.escaped q.escaped p.symbols q.symbols with
  | none => exact fun _ hpair => absurd hpair List.not_mem_nil
  | some pairs => exact undecided_of_reduce h

theorem compareWithin_eq (n : Nat) (p q : Pattern) :
    compareWithin (p.size + q.size + 1 + n) p q = some (p.compare q) := by
  have henough : p.symbols.length + q.symbols.length < p.size + q.size + 1 + n := by
    rw [size_eq_length, size_eq_length]
    omega
  rw [compareWithin, rounds_eq_reduce henough, Option.map_some, compare_eq_ofPairs]

/-- Nothing is left over of two constants. -/
theorem residuals_of_isConstant {p q : Pattern} (hp : p.isConstant = true)
    (hq : q.isConstant = true) : (p.compare q).residuals = [] := by
  refine List.eq_nil_iff_forall_not_mem.mpr fun pair hpair => ?_
  have hpieces := piecesOf_residuals p q
  have hmem : ∀ {f : Pattern × Pattern → Pattern} {l : List Symbol}, l.all Symbol.isChar = true →
      (symbolsAll ((p.compare q).residuals.map f)).Sublist l → (f pair).isConstant = true := by
    intro f l hl hsub
    refine List.all_eq_true.mpr fun x hx => List.all_eq_true.mp hl x (hsub.subset ?_)
    exact List.mem_flatMap.mpr ⟨f pair, List.mem_map_of_mem hpair, hx⟩
  have hslots := (undecided_residuals p q pair hpair).slots
  rw [hmem hp hpieces.1, hmem hq hpieces.2] at hslots
  cases hslots

/-- A comparison ends after at most as many rounds as the patterns have characters and slots, and
one more. The pairs that it leaves over are together not larger than the patterns, hold each slot
at most as often as the patterns do and in the same order, and none of them can be decided without
the values of slots. Two patterns without slots leave nothing to be decided. -/
theorem compare_ends_in_pieces (p q : Pattern) :
    (∀ n, compareWithin (p.size + q.size + 1 + n) p q = some (p.compare q)) ∧
    (sizeAll ((p.compare q).residuals.map Prod.fst) ≤ p.size ∧
      sizeAll ((p.compare q).residuals.map Prod.snd) ≤ q.size) ∧
    ((((p.compare q).residuals.map Prod.fst).flatMap slots).Sublist p.slots ∧
      (((p.compare q).residuals.map Prod.snd).flatMap slots).Sublist q.slots) ∧
    (∀ pair ∈ (p.compare q).residuals, Undecided pair.1 pair.2) ∧
    (p.isConstant = true → q.isConstant = true →
      (p.compare q).neverMatch = true ∨ (p.compare q).alwaysMatch = true) := by
  obtain ⟨hleft, hright⟩ := piecesOf_residuals p q
  refine ⟨fun n => compareWithin_eq n p q, ⟨?_, ?_⟩, ⟨?_, ?_⟩, undecided_residuals p q, ?_⟩
  · rw [sizeAll_eq_length, size_eq_length]
    exact hleft.length_le
  · rw [sizeAll_eq_length, size_eq_length]
    exact hright.length_le
  · rw [flatMap_slots]
    exact hleft.filterMap Symbol.slot?
  · rw [flatMap_slots]
    exact hright.filterMap Symbol.slot?
  · intro hp hq
    have hnil := residuals_of_isConstant hp hq
    cases hcompare : p.compare q with
    | disjoint => exact .inl rfl
    | residual pairs =>
      rw [hcompare] at hnil
      exact .inr (List.isEmpty_iff.mpr hnil)

end Pattern

end VirtualGraph
