import VirtualGraph.Bound.Tree

/-!
# Distribution of joins over unions

A join of unions becomes a union of joins, as long as the number of combinations stays within a
limit. In the joins that result, variables are often bound to terms that can never be equal; such a
join has no solution and goes away. Every function also counts the joins that went away so.
-/

namespace VirtualGraph

namespace BoundTree

mutual

/-- The bindings that every solution has. Unions and optional parts have none for sure. -/
def certainBindings : BoundTree → List (String × BoundTerm)
  | noMatch => []
  | unit => []
  | triple c => c.bindings
  | join members => certainBindingsAll members
  | union _ => []
  | leftJoin left _ _ => certainBindings left
  | filter _ inner => certainBindings inner
  | extend inner _ _ => certainBindings inner

def certainBindingsAll : List BoundTree → List (String × BoundTerm)
  | [] => []
  | t :: rest => certainBindings t ++ certainBindingsAll rest

end

/-- Whether the bindings that all members have for sure may agree. -/
def compatible (members : List BoundTree) : Bool :=
  BoundTerm.agree (certainBindingsAll members)

/-- The members of a join with nested joins opened and empty solutions left out; nothing if a member
has no solution. -/
def flatten? : List BoundTree → Option (List BoundTree)
  | [] => some []
  | noMatch :: _ => none
  | unit :: rest => flatten? rest
  | join nested :: rest => (flatten? rest).map (nested ++ ·)
  | member :: rest => (flatten? rest).map (member :: ·)

/-- The branches of a union; any other tree is its own branch. -/
def choices : BoundTree → List BoundTree
  | union branches => branches
  | t => [t]

/-- The number of combinations with one branch of each member. -/
def combinationCount : List BoundTree → Nat
  | [] => 1
  | t :: rest => t.choices.length * combinationCount rest

/-- The combinations with one branch of each member. -/
def combinations : List BoundTree → List (List BoundTree)
  | [] => [[]]
  | t :: rest => t.choices.flatMap fun c => (combinations rest).map (c :: ·)

@[simp] theorem sizeAll_append (l r : List BoundTree) :
    sizeAll (l ++ r) = sizeAll l + sizeAll r := by
  induction l with
  | nil => simp [sizeAll]
  | cons t l ih => simp [sizeAll, ih]; omega

theorem size_le_sizeAll {t : BoundTree} {ts : List BoundTree} (h : t ∈ ts) :
    t.size ≤ sizeAll ts := by
  induction ts with
  | nil => cases h
  | cons s ts ih =>
    rcases List.mem_cons.1 h with rfl | h
    · simp [sizeAll]
    · have := ih h
      simp only [sizeAll]
      omega

/-- Opening nested joins makes no join larger. -/
theorem sizeAll_flatten? {members flat : List BoundTree} (h : flatten? members = some flat) :
    sizeAll flat ≤ sizeAll members := by
  fun_induction flatten? members generalizing flat with
  | case1 => cases h; simp
  | case2 => cases h
  | case3 rest ih => have := ih h; simp only [sizeAll, size]; omega
  | case4 nested rest ih =>
    obtain ⟨flat', hf, rfl⟩ := Option.map_eq_some_iff.1 h
    have := ih hf
    simp only [sizeAll_append, sizeAll, size]
    omega
  | case5 member rest _ _ _ ih =>
    obtain ⟨flat', hf, rfl⟩ := Option.map_eq_some_iff.1 h
    have := ih hf
    simp only [sizeAll]
    omega

theorem size_le_of_mem_choices {t c : BoundTree} (h : c ∈ t.choices) : c.size ≤ t.size := by
  cases t <;> simp only [choices, List.mem_singleton] at h <;> try (subst h; exact Nat.le_refl _)
  have := size_le_sizeAll h
  simp only [size]
  omega

theorem size_lt_of_mem_choices {t c : BoundTree} (hu : t.isUnion) (h : c ∈ t.choices) :
    c.size < t.size := by
  cases t <;> simp only [isUnion] at hu <;> try cases hu
  simp only [choices] at h
  have := size_le_sizeAll h
  simp only [size]
  omega

theorem sizeAll_le_of_mem_combinations {ts cs : List BoundTree} (h : cs ∈ combinations ts) :
    sizeAll cs ≤ sizeAll ts := by
  induction ts generalizing cs with
  | nil => simp only [combinations, List.mem_singleton] at h; subst h; simp
  | cons t ts ih =>
    simp only [combinations, List.mem_flatMap, List.mem_map] at h
    obtain ⟨c, hc, cs', hcs, rfl⟩ := h
    have := size_le_of_mem_choices hc
    have := ih hcs
    simp only [sizeAll]
    omega

/-- Taking one branch of each member makes a join with a union smaller. -/
theorem sizeAll_lt_of_mem_combinations {ts cs : List BoundTree} (hu : ts.any isUnion)
    (h : cs ∈ combinations ts) : sizeAll cs < sizeAll ts := by
  induction ts generalizing cs with
  | nil => simp at hu
  | cons t ts ih =>
    simp only [combinations, List.mem_flatMap, List.mem_map] at h
    obtain ⟨c, hc, cs', hcs, rfl⟩ := h
    simp only [List.any_cons, Bool.or_eq_true] at hu
    simp only [sizeAll]
    rcases hu with hu | hu
    · have := size_lt_of_mem_choices hu hc
      have := sizeAll_le_of_mem_combinations hcs
      omega
    · have := size_le_of_mem_choices hc
      have := ih hu hcs
      omega

/-- Joins members that are already distributed. -/
def joinAll (limit : Nat) (members : List BoundTree) : BoundTree × Nat :=
  match _h : flatten? members with
  | none => (noMatch, 0)
  | some [] => (unit, 0)
  | some [member] => (member, 0)
  | some flat =>
    if _hu : flat.any isUnion ∧ combinationCount flat ≤ limit then
      let branches := (combinations flat).attach.map fun ⟨c, _⟩ => joinAll limit c
      (ofBranches ((branches.map (·.1)).filter (!·.isNoMatch)),
        (branches.map (·.2)).foldr (· + ·) 0)
    else if compatible flat then (join flat, 0)
    else (noMatch, 1)
termination_by sizeAll members
decreasing_by
  rename_i hc
  exact Nat.lt_of_lt_of_le (sizeAll_lt_of_mem_combinations _hu.1 hc) (sizeAll_flatten? _h)

/-- A relation between members and their join holds if it holds in each case of the definition. -/
theorem joinAll_induction {P : List BoundTree → BoundTree → Prop} {limit : Nat}
    (noMatch : ∀ ts, flatten? ts = none → P ts noMatch)
    (unit : ∀ ts, flatten? ts = some [] → P ts unit)
    (single : ∀ ts t, flatten? ts = some [t] → P ts t)
    (branches : ∀ ts flat, flatten? ts = some flat →
      (∀ cs ∈ combinations flat, P cs (joinAll limit cs).1) →
      P ts (ofBranches (((combinations flat).map fun cs => (joinAll limit cs).1).filter
        (!·.isNoMatch))))
    (join : ∀ ts flat, flatten? ts = some flat → P ts (join flat))
    (incompatible : ∀ ts flat, flatten? ts = some flat → compatible flat = false →
      P ts BoundTree.noMatch) (ts : List BoundTree) : P ts (joinAll limit ts).1 := by
  fun_induction joinAll limit ts with
  | case1 ts hflat => exact noMatch ts hflat
  | case2 ts hflat => exact unit ts hflat
  | case3 ts member hflat => exact single ts member hflat
  | case4 ts flat _ _ hflat _ joined ih =>
    have hjoined : joined.map (·.1) = (combinations flat).map fun cs => (joinAll limit cs).1 := by
      rw [List.map_map]
      exact List.attach_map_val (f := fun cs => (joinAll limit cs).1)
    rw [hjoined]
    exact branches ts flat hflat ih
  | case5 ts flat _ _ hflat _ _ => exact join ts flat hflat
  | case6 ts flat _ _ hflat _ hcompatible =>
    exact incompatible ts flat hflat (Bool.eq_false_iff.mpr hcompatible)

/-- The branches of a union with nested unions opened and branches without solutions left out. -/
def flattenUnion : List BoundTree → List BoundTree
  | [] => []
  | noMatch :: rest => flattenUnion rest
  | union nested :: rest => nested ++ flattenUnion rest
  | branch :: rest => branch :: flattenUnion rest

mutual

/-- Distributes the joins of a tree from its leaves up. -/
def distribute (limit : Nat) : BoundTree → BoundTree × Nat
  | noMatch => (noMatch, 0)
  | unit => (unit, 0)
  | triple c => (triple c, 0)
  | join members =>
    let (members, n) := distributeAll limit members
    let (t, k) := joinAll limit members
    (t, n + k)
  | union branches =>
    let (branches, n) := distributeAll limit branches
    (ofBranches (flattenUnion branches), n)
  | leftJoin left right condition =>
    let (left, n) := distribute limit left
    let (right, k) := distribute limit right
    if left.isNoMatch then (noMatch, n + k)
    else if right.isNoMatch || !compatible [left, right] then (left, n + k + 1)
    else (leftJoin left right condition, n + k)
  | filter condition inner =>
    let (inner, n) := distribute limit inner
    if inner.isNoMatch then (noMatch, n) else (filter condition inner, n)
  | extend inner name value =>
    let (inner, n) := distribute limit inner
    if inner.isNoMatch then (noMatch, n) else (extend inner name value, n)

def distributeAll (limit : Nat) : List BoundTree → List BoundTree × Nat
  | [] => ([], 0)
  | t :: rest =>
    let (t, n) := distribute limit t
    let (ts, k) := distributeAll limit rest
    (t :: ts, n + k)

end

/-- Removes what cannot match and distributes joins over unions. -/
def optimise (limit : Nat) (t : BoundTree) : BoundTree := (distribute limit t.prune).1

end BoundTree

end VirtualGraph
