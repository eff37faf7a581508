import VirtualGraph.Bound.Distribution

/-!
# Patterns without expressions

A graph pattern is plain if it has no filter, no extension and no condition on a left join. Binding
it to a mapping and optimising the bound tree bring no expression in.
-/

namespace VirtualGraph

namespace GraphPattern

mutual

/-- No part of the pattern has an expression. -/
def Plain : GraphPattern → Prop
  | unit => True
  | triple _ => True
  | join members => PlainAll members
  | union branches => PlainAll branches
  | leftJoin left right condition => Plain left ∧ Plain right ∧ condition = none
  | filter _ _ => False
  | extend _ _ _ => False

def PlainAll : List GraphPattern → Prop
  | [] => True
  | p :: rest => Plain p ∧ PlainAll rest

end

end GraphPattern

namespace BoundTree

mutual

/-- No part of the tree has an expression. -/
def Plain : BoundTree → Prop
  | noMatch => True
  | unit => True
  | triple _ => True
  | join members => PlainAll members
  | union branches => PlainAll branches
  | leftJoin left right condition => Plain left ∧ Plain right ∧ condition = none
  | filter _ _ => False
  | extend _ _ _ => False

def PlainAll : List BoundTree → Prop
  | [] => True
  | t :: rest => Plain t ∧ PlainAll rest

end

variable {t c : BoundTree} {ts cs flat : List BoundTree}

theorem plainAll_iff : PlainAll ts ↔ ∀ t ∈ ts, t.Plain := by
  induction ts with
  | nil => simp [PlainAll]
  | cons t ts ih => simp [PlainAll, ih]

theorem plain_ofBranches (h : ∀ t ∈ ts, t.Plain) : (ofBranches ts).Plain := by
  match ts, h with
  | [], _ => trivial
  | [t], h => exact h t List.mem_cons_self
  | t :: u :: rest, h => exact plainAll_iff.mpr h

mutual

theorem plain_bind (m : Mapping) : ∀ (p : GraphPattern) (row : Nat), p.Plain →
    (bind m row p).1.Plain
  | .unit, _, _ => trivial
  | .triple _, _, _ => plain_ofBranches (List.forall_mem_map.mpr fun _ _ => trivial)
  | .join members, row, h => plainAll_bindAll m members row h
  | .union branches, row, h => plainAll_bindAll m branches row h
  | .leftJoin left right _, row, h =>
    ⟨plain_bind m left row h.1, plain_bind m right _ h.2.1, h.2.2⟩

theorem plainAll_bindAll (m : Mapping) : ∀ (ps : List GraphPattern) (row : Nat),
    GraphPattern.PlainAll ps → PlainAll (bindAll m row ps).1
  | [], _, _ => trivial
  | p :: rest, row, h => ⟨plain_bind m p row h.1, plainAll_bindAll m rest _ h.2⟩

end

mutual

theorem plain_prune : ∀ t : BoundTree, t.Plain → t.prune.Plain
  | noMatch, _ => trivial
  | unit, _ => trivial
  | triple c, _ => by
    rw [prune]
    split <;> trivial
  | join members, h => plainAll_pruneAll members h
  | union branches, h => by
    have hbranches := plainAll_iff.mp (plainAll_pruneAll branches h)
    exact plain_ofBranches fun t ht => hbranches t (List.mem_filter.mp ht).1
  | leftJoin left right _, h => ⟨plain_prune left h.1, plain_prune right h.2.1, h.2.2⟩

theorem plainAll_pruneAll : ∀ ts : List BoundTree, PlainAll ts → PlainAll (pruneAll ts)
  | [], _ => trivial
  | t :: rest, h => ⟨plain_prune t h.1, plainAll_pruneAll rest h.2⟩

end

theorem plainAll_append (h : PlainAll ts) (h' : PlainAll cs) : PlainAll (ts ++ cs) :=
  plainAll_iff.mpr (List.forall_mem_append.mpr ⟨plainAll_iff.mp h, plainAll_iff.mp h'⟩)

theorem plainAll_flatten? (h : PlainAll ts) (hflat : flatten? ts = some flat) : PlainAll flat := by
  induction ts generalizing flat with
  | nil =>
    cases hflat
    trivial
  | cons t ts ih =>
    cases t with
    | noMatch => cases hflat
    | unit => exact ih h.2 hflat
    | join nested =>
      obtain ⟨flat, hrest, rfl⟩ := Option.map_eq_some_iff.mp hflat
      exact plainAll_append h.1 (ih h.2 hrest)
    | _ =>
      obtain ⟨flat, hrest, rfl⟩ := Option.map_eq_some_iff.mp hflat
      exact ⟨h.1, ih h.2 hrest⟩

theorem plain_of_mem_choices (h : t.Plain) (hc : c ∈ t.choices) : c.Plain := by
  cases t with
  | union branches => exact plainAll_iff.mp h c hc
  | _ => exact List.mem_singleton.mp hc ▸ h

theorem plainAll_of_mem_combinations (h : PlainAll ts) (hcs : cs ∈ combinations ts) :
    PlainAll cs := by
  induction ts generalizing cs with
  | nil =>
    obtain rfl := List.mem_singleton.mp hcs
    trivial
  | cons t ts ih =>
    obtain ⟨c, hc, hcs⟩ := List.mem_flatMap.mp hcs
    obtain ⟨rest, hrest, rfl⟩ := List.mem_map.mp hcs
    exact ⟨plain_of_mem_choices h.1 hc, ih h.2 hrest⟩

theorem plain_joinAll (limit : Nat) (ts : List BoundTree) :
    PlainAll ts → (joinAll limit ts).1.Plain := by
  induction ts using joinAll_induction with
  | noMatch => exact fun _ => trivial
  | unit => exact fun _ => trivial
  | single ts t hflat => exact fun h => (plainAll_flatten? h hflat).1
  | branches ts flat hflat ih =>
    intro h
    refine plain_ofBranches fun t ht => ?_
    obtain ⟨cs, hcs, rfl⟩ := List.mem_map.mp (List.mem_filter.mp ht).1
    exact ih cs hcs (plainAll_of_mem_combinations (plainAll_flatten? h hflat) hcs)
  | join ts flat hflat => exact fun h => plainAll_flatten? h hflat
  | incompatible => exact fun _ => trivial

theorem plainAll_flattenUnion (h : PlainAll ts) : PlainAll (flattenUnion ts) := by
  induction ts with
  | nil => trivial
  | cons t ts ih =>
    cases t with
    | noMatch => exact ih h.2
    | union nested => exact plainAll_append h.1 (ih h.2)
    | _ => exact ⟨h.1, ih h.2⟩

mutual

theorem plain_distribute (limit : Nat) : ∀ t : BoundTree, t.Plain → (distribute limit t).1.Plain
  | noMatch, _ => trivial
  | unit, _ => trivial
  | triple _, _ => trivial
  | join members, h => plain_joinAll limit _ (plainAll_distributeAll limit members h)
  | union branches, h =>
    plain_ofBranches (plainAll_iff.mp
      (plainAll_flattenUnion (plainAll_distributeAll limit branches h)))
  | leftJoin left right condition, h => by
    have hleft := plain_distribute limit left h.1
    have hright := plain_distribute limit right h.2.1
    simp only [distribute]
    split
    · trivial
    · split
      · exact hleft
      · exact ⟨hleft, hright, h.2.2⟩

theorem plainAll_distributeAll (limit : Nat) : ∀ ts : List BoundTree, PlainAll ts →
    PlainAll (distributeAll limit ts).1
  | [], _ => trivial
  | t :: rest, h => ⟨plain_distribute limit t h.1, plainAll_distributeAll limit rest h.2⟩

end

/-- Optimisation brings no expression in. -/
theorem plain_optimise (limit : Nat) (h : t.Plain) : (t.optimise limit).Plain :=
  plain_distribute limit _ (plain_prune t h)

end BoundTree

end VirtualGraph
