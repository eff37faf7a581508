import VirtualGraph.Proofs.Bound.Candidate

/-!
# Optimisation keeps the solutions of a bound tree

Every step of pruning and distribution reduces a tree: the solutions stay as they are, no new
variable appears, and no extension starts to bind a variable again. The last is what bindings for
sure rest on: a solution realises all of them, so a join whose bindings cannot agree has no
solution.
-/

namespace VirtualGraph

variable {α : Type} {I : Interpretation α} {db : Database α}

namespace Solution

variable {a b : Solution} {binding : String × BoundTerm}

theorem Realises.merge_left (h : a.Realises binding) : (a.merge b).Realises binding := by
  obtain ⟨x, hx, hterm⟩ := h
  exact ⟨x, merge_of_left hx, hterm⟩

theorem Realises.merge_right (hc : Compatible a b) (h : b.Realises binding) :
    (a.merge b).Realises binding := by
  obtain ⟨x, hx, hterm⟩ := h
  exact ⟨x, merge_of_right hc hx, hterm⟩

theorem Realises.bind {name : String} {term : Option RdfTerm} (h : a.Realises binding)
    (hne : binding.1 ≠ name) : (a.bind name term).Realises binding := by
  obtain ⟨x, hx, hterm⟩ := h
  exact ⟨x, (if_neg hne).trans hx, hterm⟩

end Solution

namespace BoundTree

mutual

theorem mem_names_of_certain : ∀ t : BoundTree, ∀ b ∈ t.certainBindings, b.1 ∈ t.names
  | noMatch, _, hb => absurd hb List.not_mem_nil
  | unit, _, hb => absurd hb List.not_mem_nil
  | triple _, _, hb => Candidate.mem_variables_of_mem_bindings hb
  | join members, b, hb => mem_namesAll_of_certain members b hb
  | union _, _, hb => absurd hb List.not_mem_nil
  | leftJoin left _ _, b, hb => List.mem_append_left _ (mem_names_of_certain left b hb)
  | filter _ inner, b, hb => mem_names_of_certain inner b hb
  | extend inner _ _, b, hb => List.mem_append_left _ (mem_names_of_certain inner b hb)

theorem mem_namesAll_of_certain : ∀ ts : List BoundTree,
    ∀ b ∈ certainBindingsAll ts, b.1 ∈ namesAll ts
  | [], _, hb => absurd hb List.not_mem_nil
  | t :: rest, b, hb => by
    obtain hb | hb := List.mem_append.mp hb
    · exact List.mem_append_left _ (mem_names_of_certain t b hb)
    · exact List.mem_append_right _ (mem_namesAll_of_certain rest b hb)

end

open Classical in
mutual

/-- A solution realises the bindings that all solutions have. -/
theorem realises_certain : ∀ t : BoundTree, t.NoRebinding →
    ∀ a ∈ t.solutions I db, ∀ b ∈ t.certainBindings, a.Realises b
  | noMatch, _, _, _, _, hb => absurd hb List.not_mem_nil
  | unit, _, _, _, _, hb => absurd hb List.not_mem_nil
  | triple c, _, a, ha, b, hb => by
    obtain ⟨rows, hadmits, rfl⟩ := Candidate.mem_solutions ha
    exact hadmits.realises_bindings b hb
  | join members, h, a, ha, b, hb => realises_certainAll members h a ha b hb
  | union _, _, _, _, _, hb => absurd hb List.not_mem_nil
  | leftJoin left _ _, h, a, ha, b, hb => by
    obtain ⟨l, hl, rfl | ⟨r, -, -, rfl⟩⟩ := Solution.mem_leftJoin ha
    · exact realises_certain left h.1 a hl b hb
    · exact (realises_certain left h.1 l hl b hb).merge_left
  | filter _ inner, h, a, ha, b, hb =>
    realises_certain inner h a (Multiset.mem_of_mem_filter ha) b hb
  | extend inner name _, h, a, ha, b, hb => by
    obtain ⟨l, hl, rfl⟩ := Multiset.mem_map.mp ha
    refine (realises_certain inner h.1 l hl b hb).bind fun heq => h.2 ?_
    exact heq ▸ mem_names_of_certain inner b hb

theorem realises_certainAll : ∀ ts : List BoundTree, NoRebindingAll ts →
    ∀ a ∈ solutionsOfJoin I db ts, ∀ b ∈ certainBindingsAll ts, a.Realises b
  | [], _, _, _, _, hb => absurd hb List.not_mem_nil
  | t :: rest, h, a, ha, b, hb => by
    obtain ⟨l, hl, r, hr, hc, rfl⟩ := Solution.mem_join.mp ha
    obtain hb | hb := List.mem_append.mp hb
    · exact (realises_certain t h.1 l hl b hb).merge_left
    · exact (realises_certainAll rest h.2 r hr b hb).merge_right hc

end

/-- A join whose bindings cannot agree has no solution. -/
theorem solutionsOfJoin_eq_zero {ts : List BoundTree} (h : NoRebindingAll ts)
    (hc : compatible ts = false) : solutionsOfJoin I db ts = 0 := by
  refine Multiset.eq_zero_of_forall_notMem fun a ha => ?_
  have := Solution.agree_of_realises (realises_certainAll ts h a ha)
  rw [compatible, this] at hc
  cases hc

/-- A tree with the same solutions, no further variables and no rebinding. -/
structure Reduces (I : Interpretation α) (db : Database α) (t' t : BoundTree) : Prop where
  solutions : t'.solutions I db = t.solutions I db
  names : t'.names ⊆ t.names
  noRebinding : t'.NoRebinding

namespace Reduces

variable {t t' t'' left left' right right' : BoundTree} {ts ts' : List BoundTree}

theorem refl (h : t.NoRebinding) : Reduces I db t t := ⟨rfl, List.Subset.refl _, h⟩

theorem trans (h : Reduces I db t'' t') (h' : Reduces I db t' t) : Reduces I db t'' t :=
  ⟨h.solutions.trans h'.solutions, List.Subset.trans h.names h'.names, h.noRebinding⟩

/-- A tree without solutions is no match. -/
theorem noMatch (h : t.solutions I db = 0) : Reduces I db .noMatch t :=
  ⟨h.symm, List.nil_subset _, trivial⟩

theorem join_cons (first : Reduces I db t' t) (rest : Reduces I db (.join ts') (.join ts)) :
    Reduces I db (.join (t' :: ts')) (.join (t :: ts)) :=
  ⟨congrArg₂ Solution.join first.solutions rest.solutions,
    append_subset_append first.names rest.names, first.noRebinding, rest.noRebinding⟩

theorem union_cons (first : Reduces I db t' t) (rest : Reduces I db (.union ts') (.union ts)) :
    Reduces I db (.union (t' :: ts')) (.union (t :: ts)) :=
  ⟨congrArg₂ (· + ·) first.solutions rest.solutions,
    append_subset_append first.names rest.names, first.noRebinding, rest.noRebinding⟩

theorem join (h : List.Forall₂ (Reduces I db) ts' ts) :
    Reduces I db (.join ts') (.join ts) := by
  induction h with
  | nil => exact .refl trivial
  | cons first _ ih => exact join_cons first ih

theorem union (h : List.Forall₂ (Reduces I db) ts' ts) :
    Reduces I db (.union ts') (.union ts) := by
  induction h with
  | nil => exact .refl trivial
  | cons first _ ih => exact union_cons first ih

theorem leftJoin (hl : Reduces I db left' left) (hr : Reduces I db right' right)
    (condition : Option Expression) :
    Reduces I db (.leftJoin left' right' condition) (.leftJoin left right condition) := by
  refine ⟨?_, append_subset_append hl.names hr.names, hl.noRebinding, hr.noRebinding⟩
  rw [BoundTree.solutions, BoundTree.solutions, hl.solutions, hr.solutions]

theorem filter (h : Reduces I db t' t) (condition : Expression) :
    Reduces I db (.filter condition t') (.filter condition t) := by
  refine ⟨?_, h.names, h.noRebinding⟩
  rw [BoundTree.solutions, BoundTree.solutions, h.solutions]

theorem extend {name : String} (h : Reduces I db t' t) (hname : name ∉ t.names)
    (value : Expression) : Reduces I db (.extend t' name value) (.extend t name value) := by
  refine ⟨?_, append_subset_append h.names (List.Subset.refl _), h.noRebinding,
    fun hmem => hname (h.names hmem)⟩
  rw [BoundTree.solutions, BoundTree.solutions, h.solutions]

end Reduces

variable {t c : BoundTree} {ts cs flat : List BoundTree} {name : String}

theorem mem_namesAll : name ∈ namesAll ts ↔ ∃ t ∈ ts, name ∈ t.names := by
  induction ts with
  | nil => simp [namesAll]
  | cons t ts ih => simp [namesAll, ih]

theorem noRebindingAll_iff : NoRebindingAll ts ↔ ∀ t ∈ ts, t.NoRebinding := by
  induction ts with
  | nil => simp [NoRebindingAll]
  | cons t ts ih => simp [NoRebindingAll, ih]

theorem namesAll_append (l r : List BoundTree) : namesAll (l ++ r) = namesAll l ++ namesAll r := by
  induction l with
  | nil => rfl
  | cons t l ih => rw [List.cons_append, namesAll, namesAll, ih, List.append_assoc]

theorem NoRebindingAll.append {l r : List BoundTree} (hl : NoRebindingAll l)
    (hr : NoRebindingAll r) : NoRebindingAll (l ++ r) :=
  noRebindingAll_iff.mpr
    (List.forall_mem_append.mpr ⟨noRebindingAll_iff.mp hl, noRebindingAll_iff.mp hr⟩)

theorem solutionsOfUnion_append (l r : List BoundTree) :
    solutionsOfUnion I db (l ++ r) = solutionsOfUnion I db l + solutionsOfUnion I db r := by
  induction l with
  | nil => exact (zero_add _).symm
  | cons t l ih => rw [List.cons_append, solutionsOfUnion, solutionsOfUnion, ih, add_assoc]

theorem solutionsOfJoin_append (l r : List BoundTree) : solutionsOfJoin I db (l ++ r) =
    Solution.join (solutionsOfJoin I db l) (solutionsOfJoin I db r) := by
  induction l with
  | nil => exact Solution.join_empty_left.symm
  | cons t l ih => rw [List.cons_append, solutionsOfJoin, solutionsOfJoin, ih, Solution.join_assoc]

theorem reduces_ofBranches (h : NoRebindingAll ts) : Reduces I db (ofBranches ts) (union ts) := by
  match ts, h with
  | [], _ => exact .noMatch rfl
  | [t], h => exact ⟨(add_zero _).symm, List.subset_append_left _ _, h.1⟩
  | t :: u :: rest, h => exact .refl h

theorem eq_noMatch_of_isNoMatch (h : t.isNoMatch = true) : t = noMatch := by
  cases t <;> simp_all [isNoMatch]

theorem reduces_union_noMatch (h : Reduces I db (union cs) (union ts)) :
    Reduces I db (union cs) (union (noMatch :: ts)) :=
  ⟨h.solutions.trans (zero_add _).symm, h.names, h.noRebinding⟩

/-- Branches without solutions may be left out. -/
theorem reduces_filter_isNoMatch (h : NoRebindingAll ts) :
    Reduces I db (union (ts.filter (!·.isNoMatch))) (union ts) := by
  induction ts with
  | nil => exact .refl trivial
  | cons t ts ih =>
    cases ht : t.isNoMatch with
    | true =>
      obtain rfl := eq_noMatch_of_isNoMatch ht
      exact reduces_union_noMatch (ih h.2)
    | false =>
      rw [List.filter_cons_of_pos (by simp [ht])]
      exact .union_cons (.refl h.1) (ih h.2)

theorem reduces_flattenUnion (h : NoRebindingAll ts) :
    Reduces I db (union (flattenUnion ts)) (union ts) := by
  fun_induction flattenUnion ts with
  | case1 => exact .refl trivial
  | case2 rest ih => exact reduces_union_noMatch (ih h.2)
  | case3 nested rest ih =>
    have ih := ih h.2
    refine ⟨?_, ?_, NoRebindingAll.append h.1 ih.noRebinding⟩
    · refine (solutionsOfUnion_append nested _).trans ?_
      exact congrArg (solutionsOfUnion I db nested + ·) ih.solutions
    · rw [names, namesAll_append]
      exact append_subset_append (List.Subset.refl _) ih.names
  | case4 t rest _ _ ih => exact .union_cons (.refl h.1) (ih h.2)

/-- A join with a member without solutions has none. -/
theorem solutionsOfJoin_of_flatten?_eq_none (h : flatten? ts = none) :
    solutionsOfJoin I db ts = 0 := by
  fun_induction flatten? ts with
  | case1 => cases h
  | case2 rest => rfl
  | case3 rest ih => rw [solutionsOfJoin, ih h, Solution.join_zero_right]
  | case4 nested rest ih =>
    rw [solutionsOfJoin, ih (Option.map_eq_none_iff.mp h), Solution.join_zero_right]
  | case5 t rest _ _ _ ih =>
    rw [solutionsOfJoin, ih (Option.map_eq_none_iff.mp h), Solution.join_zero_right]

/-- Nested joins may be opened and empty solutions left out. -/
theorem reduces_flatten? (h : NoRebindingAll ts) (hflat : flatten? ts = some flat) :
    Reduces I db (join flat) (join ts) := by
  fun_induction flatten? ts generalizing flat with
  | case1 =>
    cases hflat
    exact .refl trivial
  | case2 => cases hflat
  | case3 rest ih =>
    have ih := ih h.2 hflat
    exact ⟨ih.solutions.trans Solution.join_empty_left.symm, ih.names, ih.noRebinding⟩
  | case4 nested rest ih =>
    obtain ⟨flat, hrest, rfl⟩ := Option.map_eq_some_iff.mp hflat
    have ih := ih h.2 hrest
    refine ⟨?_, ?_, NoRebindingAll.append h.1 ih.noRebinding⟩
    · refine (solutionsOfJoin_append nested flat).trans ?_
      exact congrArg (Solution.join (solutionsOfJoin I db nested)) ih.solutions
    · rw [names, namesAll_append]
      exact append_subset_append (List.Subset.refl _) ih.names
  | case5 t rest _ _ _ ih =>
    obtain ⟨flat, hrest, rfl⟩ := Option.map_eq_some_iff.mp hflat
    exact .join_cons (.refl h.1) (ih h.2 hrest)

theorem solutions_eq_choices (t : BoundTree) :
    t.solutions I db = solutionsOfUnion I db t.choices := by
  cases t with
  | union branches => rfl
  | _ => exact (add_zero _).symm

theorem solutionsOfUnion_join_cons (c : BoundTree) (l : List (List BoundTree)) :
    solutionsOfUnion I db (l.map fun cs => join (c :: cs)) =
      Solution.join (c.solutions I db) (solutionsOfUnion I db (l.map join)) := by
  induction l with
  | nil => exact Solution.join_zero_right.symm
  | cons cs l ih =>
    rw [List.map_cons, List.map_cons, solutionsOfUnion, solutionsOfUnion, Solution.join_add_right,
      ih]
    rfl

theorem solutionsOfUnion_flatMap_join (choices : List BoundTree) (l : List (List BoundTree)) :
    solutionsOfUnion I db (choices.flatMap fun c => l.map fun cs => join (c :: cs)) =
      Solution.join (solutionsOfUnion I db choices) (solutionsOfUnion I db (l.map join)) := by
  induction choices with
  | nil => rfl
  | cons c choices ih =>
    rw [List.flatMap_cons, solutionsOfUnion_append, solutionsOfUnion_join_cons, ih,
      solutionsOfUnion, Solution.join_add_left]

/-- A join of unions is the union of the joins of all combinations of branches. -/
theorem solutionsOfUnion_combinations (ts : List BoundTree) :
    solutionsOfUnion I db ((combinations ts).map join) = solutionsOfJoin I db ts := by
  induction ts with
  | nil => exact add_zero _
  | cons t ts ih =>
    rw [combinations, List.map_flatMap]
    simp only [List.map_map, Function.comp_def]
    rw [solutionsOfUnion_flatMap_join, ih, ← solutions_eq_choices, solutionsOfJoin]

theorem noRebinding_of_mem_choices (h : t.NoRebinding) (hc : c ∈ t.choices) : c.NoRebinding := by
  cases t with
  | union branches => exact noRebindingAll_iff.mp h c hc
  | _ => exact List.mem_singleton.mp hc ▸ h

theorem names_of_mem_choices (hc : c ∈ t.choices) : c.names ⊆ t.names := by
  cases t with
  | union branches => exact fun name hname => mem_namesAll.mpr ⟨c, hc, hname⟩
  | _ => exact List.mem_singleton.mp hc ▸ List.Subset.refl _

theorem of_mem_combinations (h : NoRebindingAll ts) (hcs : cs ∈ combinations ts) :
    NoRebindingAll cs ∧ namesAll cs ⊆ namesAll ts := by
  induction ts generalizing cs with
  | nil =>
    obtain rfl := List.mem_singleton.mp hcs
    exact ⟨trivial, List.Subset.refl _⟩
  | cons t ts ih =>
    obtain ⟨c, hc, hcs⟩ := List.mem_flatMap.mp hcs
    obtain ⟨rest, hrest, rfl⟩ := List.mem_map.mp hcs
    obtain ⟨hno, hnames⟩ := ih h.2 hrest
    exact ⟨⟨noRebinding_of_mem_choices h.1 hc, hno⟩,
      append_subset_append (names_of_mem_choices hc) hnames⟩

theorem reduces_combinations (h : NoRebindingAll ts) :
    Reduces I db (union ((combinations ts).map join)) (join ts) := by
  refine ⟨solutionsOfUnion_combinations ts, fun name hname => ?_, noRebindingAll_iff.mpr ?_⟩
  · obtain ⟨u, hu, hname⟩ := mem_namesAll.mp hname
    obtain ⟨cs, hcs, rfl⟩ := List.mem_map.mp hu
    exact (of_mem_combinations h hcs).2 hname
  · refine List.forall_mem_map.mpr fun cs hcs => ?_
    exact (of_mem_combinations h hcs).1

theorem reduces_singleton (h : t.NoRebinding) : Reduces I db t (join [t]) :=
  ⟨Solution.join_empty_right.symm, List.subset_append_left _ _, h⟩

theorem reduces_branches {f : List BoundTree → BoundTree} {css : List (List BoundTree)}
    (h : ∀ cs ∈ css, Reduces I db (f cs) (join cs)) :
    Reduces I db (ofBranches ((css.map f).filter (!·.isNoMatch))) (union (css.map join)) := by
  have hunion : Reduces I db (union (css.map f)) (union (css.map join)) := by
    refine .union ?_
    rw [List.forall₂_map_left_iff, List.forall₂_map_right_iff, List.forall₂_same]
    exact h
  have hfilter : Reduces I db (union ((css.map f).filter (!·.isNoMatch))) (union (css.map f)) :=
    reduces_filter_isNoMatch hunion.noRebinding
  exact (reduces_ofBranches hfilter.noRebinding).trans (hfilter.trans hunion)

/-- Joining members reduces their join. -/
theorem reduces_joinAll (limit : Nat) (ts : List BoundTree) :
    NoRebindingAll ts → Reduces I db (joinAll limit ts).1 (join ts) := by
  induction ts using joinAll_induction with
  | noMatch ts hflat => exact fun _ => .noMatch (solutionsOfJoin_of_flatten?_eq_none hflat)
  | unit ts hflat =>
    intro h
    have hunit : Reduces I db unit (join []) := ⟨rfl, List.nil_subset _, trivial⟩
    exact hunit.trans (reduces_flatten? h hflat)
  | single ts member hflat =>
    intro h
    have hjoin : Reduces I db (join [member]) (join ts) := reduces_flatten? h hflat
    exact (reduces_singleton hjoin.noRebinding.1).trans hjoin
  | branches ts flat hflat ih =>
    intro h
    have hjoin : Reduces I db (join flat) (join ts) := reduces_flatten? h hflat
    refine (reduces_branches fun cs hcs => ?_).trans
      ((reduces_combinations hjoin.noRebinding).trans hjoin)
    exact ih cs hcs (of_mem_combinations hjoin.noRebinding hcs).1
  | join ts flat hflat => exact fun h => reduces_flatten? h hflat
  | incompatible ts flat hflat hcompatible =>
    intro h
    have hjoin : Reduces I db (join flat) (join ts) := reduces_flatten? h hflat
    refine .noMatch ?_
    rw [← hjoin.solutions]
    exact solutionsOfJoin_eq_zero hjoin.noRebinding hcompatible

theorem join_eq_zero_of_incompatible {left right : BoundTree} (hl : left.NoRebinding)
    (hr : right.NoRebinding) (hc : compatible [left, right] = false) :
    Solution.join (left.solutions I db) (right.solutions I db) = 0 := by
  have hzero : solutionsOfJoin I db [left, right] = 0 :=
    solutionsOfJoin_eq_zero ⟨hl, hr, trivial⟩ hc
  rwa [solutionsOfJoin, solutionsOfJoin, solutionsOfJoin, Solution.join_empty_right] at hzero

theorem reduces_leftJoin_left (left right : BoundTree) (condition : Option Expression)
    (h : left.NoRebinding)
    (hzero : Solution.join (left.solutions I db) (right.solutions I db) = 0) :
    Reduces I db left (leftJoin left right condition) :=
  ⟨(Solution.leftJoin_of_join_eq_zero hzero).symm, List.subset_append_left _ _, h⟩

mutual

/-- Distribution reduces a tree. -/
theorem reduces_distribute (limit : Nat) : ∀ t : BoundTree, t.NoRebinding →
    Reduces I db (distribute limit t).1 t
  | noMatch, h => .refl h
  | unit, h => .refl h
  | triple c, h => .refl h
  | join members, h => by
    have hmembers := Reduces.join (reduces_distributeAll limit members h)
    exact (reduces_joinAll limit _ hmembers.noRebinding).trans hmembers
  | union branches, h => by
    have hbranches := Reduces.union (reduces_distributeAll limit branches h)
    have hflat : Reduces I db (union (flattenUnion _)) (union _) :=
      reduces_flattenUnion hbranches.noRebinding
    exact (reduces_ofBranches hflat.noRebinding).trans (hflat.trans hbranches)
  | leftJoin left right condition, h => by
    have hleft := reduces_distribute limit left h.1
    have hright := reduces_distribute limit right h.2
    have hboth := hleft.leftJoin hright condition
    simp only [distribute]
    split
    · rename_i hnone
      refine .noMatch ?_
      rw [← hboth.solutions, eq_noMatch_of_isNoMatch hnone]
      rfl
    · split
      · rename_i hnone
        refine Reduces.trans (reduces_leftJoin_left _ _ condition hleft.noRebinding ?_) hboth
        rw [Bool.or_eq_true, Bool.not_eq_true_eq_eq_false] at hnone
        obtain hnone | hnone := hnone
        · rw [eq_noMatch_of_isNoMatch hnone]
          exact Solution.join_zero_right
        · exact join_eq_zero_of_incompatible hleft.noRebinding hright.noRebinding hnone
      · exact hboth
  | filter condition inner, h => by
    have hinner := (reduces_distribute limit inner h).filter condition
    simp only [distribute]
    split
    · rename_i hnone
      refine .noMatch ?_
      rw [← hinner.solutions, eq_noMatch_of_isNoMatch hnone]
      rfl
    · exact hinner
  | extend inner name value, h => by
    have hinner := (reduces_distribute limit inner h.1).extend h.2 value
    simp only [distribute]
    split
    · rename_i hnone
      refine .noMatch ?_
      rw [← hinner.solutions, eq_noMatch_of_isNoMatch hnone]
      rfl
    · exact hinner

theorem reduces_distributeAll (limit : Nat) : ∀ ts : List BoundTree, NoRebindingAll ts →
    List.Forall₂ (Reduces I db) (distributeAll limit ts).1 ts
  | [], _ => .nil
  | t :: rest, h => .cons (reduces_distribute limit t h.1) (reduces_distributeAll limit rest h.2)

end

mutual

/-- Pruning reduces a tree. -/
theorem reduces_prune : ∀ t : BoundTree, t.NoRebinding → Reduces I db t.prune t
  | noMatch, h => .refl h
  | unit, h => .refl h
  | triple c, h => by
    rw [prune]
    split
    · exact .refl h
    · rename_i hmatch
      exact .noMatch (Candidate.solutions_eq_zero (Bool.eq_false_iff.mpr hmatch))
  | join members, h => .join (reduces_pruneAll members h)
  | union branches, h => by
    have hbranches := Reduces.union (reduces_pruneAll branches h)
    have hfilter : Reduces I db (union (List.filter (!·.isNoMatch) _)) (union _) :=
      reduces_filter_isNoMatch hbranches.noRebinding
    exact (reduces_ofBranches hfilter.noRebinding).trans (hfilter.trans hbranches)
  | leftJoin left right condition, h =>
    (reduces_prune left h.1).leftJoin (reduces_prune right h.2) condition
  | filter condition inner, h => (reduces_prune inner h).filter condition
  | extend inner _ value, h => (reduces_prune inner h.1).extend h.2 value

theorem reduces_pruneAll : ∀ ts : List BoundTree, NoRebindingAll ts →
    List.Forall₂ (Reduces I db) (pruneAll ts) ts
  | [], _ => .nil
  | t :: rest, h => .cons (reduces_prune t h.1) (reduces_pruneAll rest h.2)

end

/-- Optimisation keeps the solutions of a tree in which no extension binds a variable again: over
every database the same solutions arise, each as often. -/
theorem optimise_preserves_solutions (I : Interpretation α) (db : Database α) (limit : Nat)
    (t : BoundTree) (h : t.NoRebinding) :
    (t.optimise limit).solutions I db = t.solutions I db := by
  have hprune : Reduces I db t.prune t := reduces_prune t h
  exact ((reduces_distribute limit t.prune hprune.noRebinding).trans hprune).solutions

/-- A subject of either kind, joined with a triple of subjects of the first kind: only one of the
two branches can meet it. -/
theorem optimise_preserves_solutions_kinds :
    let table : LogicalTable := ⟨.table "things", []⟩
    let candidate (row : Nat) (kind name : String) : Candidate :=
      ⟨⟨.var "s", .iri name, .var "o"⟩,
        ⟨0, kind, table, ⟨.template kind [.text kind, .column "id"], .iri, none, none⟩, []⟩, row,
        .ofIri name, .term ⟨.column name, .literal, none, none⟩⟩
    let a := BoundTree.triple (candidate 0 "http://a/" "p")
    let b := BoundTree.triple (candidate 1 "http://b/" "p")
    let c := BoundTree.triple (candidate 2 "http://a/" "q")
    let t := BoundTree.extend (join [union [a, b], c]) "label" (.str (.var "o"))
    let I : Interpretation String := ⟨fun _ value => value, fun _ _ => True, fun _ _ => none⟩
    let db : Database String := fun _ => {fun _ => some "1"}
    t.NoRebinding ∧ compatible [a, c] = true ∧ compatible [b, c] = false ∧
      (t.optimise 4).solutions I db = t.solutions I db := by
  intro table candidate a b c t I db
  have hname : "label" ∉ (join [union [a, b], c]).names := by decide
  have hno : t.NoRebinding := ⟨⟨⟨trivial, trivial, trivial⟩, trivial, trivial⟩, hname⟩
  exact ⟨hno, by decide +kernel, by decide +kernel, optimise_preserves_solutions I db 4 t hno⟩

end BoundTree

end VirtualGraph
