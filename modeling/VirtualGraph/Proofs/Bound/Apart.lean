import VirtualGraph.Proofs.Bound.Rows

/-!
# Blocks read every row once

The rows that one binding hands out are read by one candidate each. Distribution writes candidates,
with their row numbers, into many branches of a union and opens nested joins, and a block keeps one
table for each row number. What keeps the tables of a block apart is an invariant of the whole tree:
no two members of a join read a common row. Every step of the optimisation keeps it.
-/

namespace VirtualGraph

/-! ### The numbers of one binding -/

namespace Candidate

variable {first next : Nat} {cs : List Candidate}

/-- Of candidates with consecutive row numbers, exactly one reads each row in the range. -/
theorem Consecutive.countP_eq (h : Consecutive first next cs) (n : Nat) :
    cs.countP (fun c => decide (n ∈ c.rowNumbers)) = if first ≤ n ∧ n < next then 1 else 0 := by
  have hnodup : (cs.flatMap rowNumbers).Nodup := h.2 ▸ List.nodup_range' ..
  have hcount : cs.countP (fun c => decide (n ∈ c.rowNumbers)) =
      (cs.flatMap rowNumbers).count n := by
    clear h
    induction cs with
    | nil => rfl
    | cons c cs ih =>
      rw [List.flatMap_cons, List.nodup_append] at hnodup
      rw [List.countP_cons, ih hnodup.2.1, List.flatMap_cons, List.count_append,
        List.Nodup.count hnodup.1, Nat.add_comm]
      simp only [decide_eq_true_eq]
  have hrange : first + (next - first) = next := Nat.add_sub_cancel' h.1
  rw [hcount, h.2, List.count_range_1', hrange]

end Candidate

namespace BoundTree

/-! ### Properties of trees whose joins keep rows apart -/

/-- No two trees read a common row. -/
def RowsApart (ts : List BoundTree) : Prop :=
  ts.Pairwise fun s t => s.rowNumbers.Disjoint t.rowNumbers

/-- A property that a join has when its members have it and keep their rows apart, and a union when
its branches have it. -/
structure Hereditary (P : BoundTree → Prop) : Prop where
  noMatch : P noMatch
  unit : P unit
  join : ∀ {ts}, P (join ts) ↔ (∀ t ∈ ts, P t) ∧ RowsApart ts
  union : ∀ {ts}, P (union ts) ↔ ∀ t ∈ ts, P t

variable {P : BoundTree → Prop} {t c : BoundTree} {ts cs flat : List BoundTree} {limit : Nat}

theorem pruneAll_eq_map (ts : List BoundTree) : pruneAll ts = ts.map prune := by
  induction ts with
  | nil => rfl
  | cons t ts ih => rw [pruneAll, ih, List.map_cons]

theorem distributeAll_eq_map (limit : Nat) (ts : List BoundTree) :
    (distributeAll limit ts).1 = ts.map fun t => (distribute limit t).1 := by
  induction ts with
  | nil => rfl
  | cons t ts ih => exact congrArg (List.cons _) ih

theorem RowsApart.map {f : BoundTree → BoundTree} (h : RowsApart ts)
    (hf : ∀ t, (f t).candidates ⊆ t.candidates) : RowsApart (ts.map f) :=
  List.pairwise_map.mpr (h.imp fun hdisjoint _ hn hn' =>
    hdisjoint (rowNumbers_mono (hf _) hn) (rowNumbers_mono (hf _) hn'))

theorem rowsApart_cons : RowsApart (t :: ts) ↔
    t.rowNumbers.Disjoint (join ts).rowNumbers ∧ RowsApart ts := by
  rw [RowsApart, List.pairwise_cons]
  refine and_congr_left fun _ => ⟨fun h n hn hn' => ?_, fun h member hmember n hn hn' => ?_⟩
  · obtain ⟨member, hmember, hn'⟩ := mem_rowNumbers_join.mp hn'
    exact h member hmember hn hn'
  · exact h hn (mem_rowNumbers_join.mpr ⟨member, hmember, hn'⟩)

theorem rowsApart_append : RowsApart (cs ++ ts) ↔
    RowsApart cs ∧ RowsApart ts ∧ (join cs).rowNumbers.Disjoint (join ts).rowNumbers := by
  rw [RowsApart, List.pairwise_append]
  refine and_congr_right fun _ => and_congr_right fun _ => ⟨?_, ?_⟩
  · intro h n hn hn'
    obtain ⟨c, hc, hn⟩ := mem_rowNumbers_join.mp hn
    obtain ⟨t, ht, hn'⟩ := mem_rowNumbers_join.mp hn'
    exact h c hc t ht hn hn'
  · intro h c hc t ht n hn hn'
    exact h (mem_rowNumbers_join.mpr ⟨c, hc, hn⟩) (mem_rowNumbers_join.mpr ⟨t, ht, hn'⟩)

namespace Hereditary

theorem join_cons (hP : Hereditary P) : P (.join (t :: ts)) ↔
    P t ∧ t.rowNumbers.Disjoint (BoundTree.join ts).rowNumbers ∧ P (.join ts) := by
  rw [hP.join, hP.join, List.forall_mem_cons, rowsApart_cons]
  tauto

theorem join_append (hP : Hereditary P) (hcs : P (.join cs)) (hts : P (.join ts))
    (hdisjoint : (BoundTree.join cs).rowNumbers.Disjoint (BoundTree.join ts).rowNumbers) :
    P (.join (cs ++ ts)) := by
  rw [hP.join] at hcs hts ⊢
  exact ⟨List.forall_mem_append.mpr ⟨hcs.1, hts.1⟩, rowsApart_append.mpr ⟨hcs.2, hts.2, hdisjoint⟩⟩

theorem flatten? (hP : Hereditary P) (h : P (.join ts))
    (hflat : BoundTree.flatten? ts = some flat) :
    P (.join flat) := by
  induction ts generalizing flat with
  | nil =>
    cases hflat
    exact h
  | cons t ts ih =>
    obtain ⟨ht, hdisjoint, hts⟩ := hP.join_cons.mp h
    -- opening joins changes no candidate, so what is apart before is apart after
    have hrows : ∀ {flat}, BoundTree.flatten? ts = some flat →
        (BoundTree.join flat).rowNumbers = (BoundTree.join ts).rowNumbers := fun hrest =>
      congrArg (List.flatMap Candidate.rowNumbers) (candidatesAll_flatten? hrest)
    cases t with
    | noMatch => cases hflat
    | unit => exact ih hts hflat
    | join nested =>
      obtain ⟨flat, hrest, rfl⟩ := Option.map_eq_some_iff.mp hflat
      exact hP.join_append ht (ih hts hrest) (hrows hrest ▸ hdisjoint)
    | _ =>
      obtain ⟨flat, hrest, rfl⟩ := Option.map_eq_some_iff.mp hflat
      exact hP.join_cons.mpr ⟨ht, hrows hrest ▸ hdisjoint, ih hts hrest⟩

theorem of_mem_choices (hP : Hereditary P) (h : P t) (hc : c ∈ t.choices) : P c := by
  cases t with
  | union branches => exact hP.union.mp h c hc
  | _ => exact List.mem_singleton.mp hc ▸ h

theorem of_mem_combinations (hP : Hereditary P) (h : P (.join ts)) (hcs : cs ∈ combinations ts) :
    P (.join cs) := by
  induction ts generalizing cs with
  | nil => exact List.mem_singleton.mp hcs ▸ h
  | cons t ts ih =>
    obtain ⟨c, hc, hcs⟩ := List.mem_flatMap.mp hcs
    obtain ⟨rest, hrest, rfl⟩ := List.mem_map.mp hcs
    obtain ⟨ht, hdisjoint, hts⟩ := hP.join_cons.mp h
    have hrows : (BoundTree.join rest).rowNumbers ⊆ (BoundTree.join ts).rowNumbers :=
      rowNumbers_mono (candidatesAll_of_mem_combinations hrest)
    refine hP.join_cons.mpr ⟨hP.of_mem_choices ht hc, fun n hn hn' => ?_, ih hts hrest⟩
    exact hdisjoint (rowNumbers_mono (candidates_of_mem_choices hc) hn) (hrows hn')

theorem ofBranches (hP : Hereditary P) (h : ∀ t ∈ ts, P t) : P (ofBranches ts) := by
  match ts, h with
  | [], _ => exact hP.noMatch
  | [t], h => exact h t List.mem_cons_self
  | _ :: _ :: _, h => exact hP.union.mpr h

/-- One branch of each member is joined at a time, so distribution keeps the property. -/
theorem joinAll (hP : Hereditary P) (limit : Nat) (ts : List BoundTree) :
    P (.join ts) → P (joinAll limit ts).1 := by
  induction ts using joinAll_induction with
  | noMatch => exact fun _ => hP.noMatch
  | unit => exact fun _ => hP.unit
  | single ts t hflat => exact fun h => (hP.join_cons.mp (hP.flatten? h hflat)).1
  | branches ts flat hflat ih =>
    intro h
    refine hP.ofBranches fun t ht => ?_
    obtain ⟨cs, hcs, rfl⟩ := List.mem_map.mp (List.mem_filter.mp ht).1
    exact ih cs hcs (hP.of_mem_combinations (hP.flatten? h hflat) hcs)
  | join ts flat hflat => exact fun h => hP.flatten? h hflat
  | incompatible => exact fun _ => hP.noMatch

theorem flattenUnion (hP : Hereditary P) (h : ∀ t ∈ ts, P t) : ∀ t ∈ flattenUnion ts, P t := by
  induction ts with
  | nil => exact h
  | cons t ts ih =>
    rw [List.forall_mem_cons] at h
    cases t with
    | noMatch => exact ih h.2
    | union nested => exact List.forall_mem_append.mpr ⟨hP.union.mp h.1, ih h.2⟩
    | _ => exact List.forall_mem_cons.mpr ⟨h.1, ih h.2⟩

/-! Joins and unions in pruning and distribution, from their members. -/

theorem prune_join (hP : Hereditary P) (h : ∀ t ∈ ts, P t.prune) (hapart : RowsApart ts) :
    P (BoundTree.join ts).prune := by
  rw [prune, pruneAll_eq_map]
  exact hP.join.mpr ⟨List.forall_mem_map.mpr h, hapart.map candidates_prune⟩

theorem prune_union (hP : Hereditary P) (h : ∀ t ∈ ts, P t.prune) :
    P (BoundTree.union ts).prune := by
  rw [prune, pruneAll_eq_map]
  refine hP.ofBranches fun t ht => ?_
  obtain ⟨branch, hbranch, rfl⟩ := List.mem_map.mp (List.mem_filter.mp ht).1
  exact h branch hbranch

theorem distribute_join (hP : Hereditary P) (h : ∀ t ∈ ts, P (distribute limit t).1)
    (hapart : RowsApart ts) : P (distribute limit (.join ts)).1 := by
  refine hP.joinAll limit _ ?_
  rw [distributeAll_eq_map]
  exact hP.join.mpr ⟨List.forall_mem_map.mpr h, hapart.map (candidates_distribute limit)⟩

theorem distribute_union (hP : Hereditary P) (h : ∀ t ∈ ts, P (distribute limit t).1) :
    P (distribute limit (.union ts)).1 := by
  refine hP.ofBranches (hP.flattenUnion ?_)
  rw [distributeAll_eq_map]
  exact List.forall_mem_map.mpr h

end Hereditary

/-! ### Joins that keep rows apart -/

/-- In every join of the tree, no two members read a common row. -/
inductive Apart : BoundTree → Prop
  | noMatch : Apart noMatch
  | unit : Apart unit
  | triple {c : Candidate} : Apart (triple c)
  | join {ts : List BoundTree} : (∀ t ∈ ts, Apart t) → RowsApart ts → Apart (join ts)
  | union {ts : List BoundTree} : (∀ t ∈ ts, Apart t) → Apart (union ts)
  | leftJoin {left right : BoundTree} {condition : Option Expression} : Apart left → Apart right →
      Apart (leftJoin left right condition)
  | filter {condition : Expression} {inner : BoundTree} : Apart inner →
      Apart (filter condition inner)
  | extend {inner : BoundTree} {name : String} {value : Expression} : Apart inner →
      Apart (extend inner name value)

theorem hereditary_apart : Hereditary Apart where
  noMatch := .noMatch
  unit := .unit
  join := ⟨fun | .join hall hapart => ⟨hall, hapart⟩, fun h => .join h.1 h.2⟩
  union := ⟨fun | .union hall => hall, .union⟩

mutual

/-- If no two candidates of a tree read a common row, no two members of its joins do. -/
theorem apart_of_candidates : ∀ t : BoundTree,
    t.candidates.Pairwise (fun x y => x.rowNumbers.Disjoint y.rowNumbers) → t.Apart
  | .noMatch, _ => .noMatch
  | .unit, _ => .unit
  | .triple _, _ => .triple
  | .join members, h =>
    .join (apart_of_candidatesAll members h) (pairwise_rowNumbers_of_candidates h).2
  | .union branches, h => .union (apart_of_candidatesAll branches h)
  | .leftJoin left right _, h =>
    .leftJoin (apart_of_candidates left (List.pairwise_append.mp h).1)
      (apart_of_candidates right (List.pairwise_append.mp h).2.1)
  | .filter _ inner, h => .filter (apart_of_candidates inner h)
  | .extend inner _ _, h => .extend (apart_of_candidates inner h)

theorem apart_of_candidatesAll : ∀ ts : List BoundTree,
    (candidatesAll ts).Pairwise (fun x y => x.rowNumbers.Disjoint y.rowNumbers) →
      ∀ t ∈ ts, t.Apart
  | [], _ => fun _ ht => absurd ht List.not_mem_nil
  | t :: rest, h => List.forall_mem_cons.mpr
    ⟨apart_of_candidates t (List.pairwise_append.mp h).1,
      apart_of_candidatesAll rest (List.pairwise_append.mp h).2.1⟩

end

theorem Apart.prune (h : t.Apart) : t.prune.Apart := by
  induction h with
  | noMatch => exact .noMatch
  | unit => exact .unit
  | triple =>
    rw [BoundTree.prune]
    split
    · exact .triple
    · exact .noMatch
  | join _ hapart ih => exact hereditary_apart.prune_join ih hapart
  | union _ ih => exact hereditary_apart.prune_union ih
  | leftJoin _ _ hleft hright => exact .leftJoin hleft hright
  | filter _ ih => exact .filter ih
  | extend _ ih => exact .extend ih

theorem Apart.distribute (limit : Nat) (h : t.Apart) : (distribute limit t).1.Apart := by
  induction h with
  | noMatch => exact .noMatch
  | unit => exact .unit
  | triple => exact .triple
  | join _ hapart ih => exact hereditary_apart.distribute_join ih hapart
  | union _ ih => exact hereditary_apart.distribute_union ih
  | leftJoin _ _ hleft hright =>
    simp only [BoundTree.distribute]
    split
    · exact .noMatch
    · split
      · exact hleft
      · exact .leftJoin hleft hright
  | filter _ ih =>
    simp only [BoundTree.distribute]
    split
    · exact .noMatch
    · exact .filter ih
  | extend _ ih =>
    simp only [BoundTree.distribute]
    split
    · exact .noMatch
    · exact .extend ih

theorem Apart.optimise (limit : Nat) (h : t.Apart) : (t.optimise limit).Apart :=
  h.prune.distribute limit

/-! ### Blocks -/

mutual

/-- The candidates that share a block with a node: those of the members of a join, inside a filter
or an extension, and on the left of a left join. -/
def blockCandidates : BoundTree → List Candidate
  | noMatch => []
  | unit => []
  | triple c => [c]
  | join members => blockCandidatesAll members
  | union _ => []
  | leftJoin left _ _ => blockCandidates left
  | filter _ inner => blockCandidates inner
  | extend inner _ _ => blockCandidates inner

def blockCandidatesAll : List BoundTree → List Candidate
  | [] => []
  | t :: rest => blockCandidates t ++ blockCandidatesAll rest

end

mutual

/-- A tree with all its subtrees. -/
def nodes : BoundTree → List BoundTree
  | noMatch => [noMatch]
  | unit => [unit]
  | triple c => [triple c]
  | join members => join members :: nodesAll members
  | union branches => union branches :: nodesAll branches
  | leftJoin left right condition => leftJoin left right condition :: (nodes left ++ nodes right)
  | filter condition inner => filter condition inner :: nodes inner
  | extend inner name value => extend inner name value :: nodes inner

def nodesAll : List BoundTree → List BoundTree
  | [] => []
  | t :: rest => nodes t ++ nodesAll rest

end

theorem nodesAll_eq_flatMap (ts : List BoundTree) : nodesAll ts = ts.flatMap nodes := by
  induction ts with
  | nil => rfl
  | cons t ts ih => rw [nodesAll, ih, List.flatMap_cons]

theorem blockCandidatesAll_eq_flatMap (ts : List BoundTree) :
    blockCandidatesAll ts = ts.flatMap blockCandidates := by
  induction ts with
  | nil => rfl
  | cons t ts ih => rw [blockCandidatesAll, ih, List.flatMap_cons]

mutual

theorem blockCandidates_subset : ∀ t : BoundTree, t.blockCandidates ⊆ t.candidates
  | noMatch => List.Subset.refl _
  | unit => List.Subset.refl _
  | triple _ => List.Subset.refl _
  | join members => blockCandidatesAll_subset members
  | union _ => List.nil_subset _
  | leftJoin left _ _ => List.subset_append_of_subset_left _ (blockCandidates_subset left)
  | filter _ inner => blockCandidates_subset inner
  | extend inner _ _ => blockCandidates_subset inner

theorem blockCandidatesAll_subset : ∀ ts : List BoundTree, blockCandidatesAll ts ⊆ candidatesAll ts
  | [] => List.Subset.refl _
  | t :: rest => append_subset_append (blockCandidates_subset t) (blockCandidatesAll_subset rest)

end

/-- The invariant holds at every node. -/
theorem Apart.of_mem_nodes (h : t.Apart) : ∀ s ∈ t.nodes, s.Apart := by
  have hmembers : ∀ {ts : List BoundTree}, (∀ t ∈ ts, ∀ s ∈ t.nodes, s.Apart) →
      ∀ s ∈ nodesAll ts, s.Apart := by
    intro ts hts s hs
    rw [nodesAll_eq_flatMap] at hs
    obtain ⟨t, ht, hs⟩ := List.mem_flatMap.mp hs
    exact hts t ht s hs
  induction h with
  | noMatch => exact List.forall_mem_singleton.mpr .noMatch
  | unit => exact List.forall_mem_singleton.mpr .unit
  | triple => exact List.forall_mem_singleton.mpr .triple
  | join hall hapart ih => exact List.forall_mem_cons.mpr ⟨.join hall hapart, hmembers ih⟩
  | union hall ih => exact List.forall_mem_cons.mpr ⟨.union hall, hmembers ih⟩
  | leftJoin hleft hright ihleft ihright =>
    exact List.forall_mem_cons.mpr
      ⟨.leftJoin hleft hright, List.forall_mem_append.mpr ⟨ihleft, ihright⟩⟩
  | filter hinner ih => exact List.forall_mem_cons.mpr ⟨.filter hinner, ih⟩
  | extend hinner ih => exact List.forall_mem_cons.mpr ⟨.extend hinner, ih⟩

/-- No two candidates of a block read a common row. -/
theorem Apart.pairwise_blockCandidates (h : t.Apart) :
    t.blockCandidates.Pairwise fun x y => x.rowNumbers.Disjoint y.rowNumbers := by
  induction h with
  | noMatch => exact .nil
  | unit => exact .nil
  | triple => exact List.pairwise_singleton _ _
  | join _ hapart ih =>
    rw [blockCandidates, blockCandidatesAll_eq_flatMap, List.pairwise_flatMap]
    refine ⟨ih, hapart.imp fun hdisjoint x hx y hy n hn hn' => ?_⟩
    exact hdisjoint (List.mem_flatMap.mpr ⟨x, blockCandidates_subset _ hx, hn⟩)
      (List.mem_flatMap.mpr ⟨y, blockCandidates_subset _ hy, hn'⟩)
  | union => exact .nil
  | leftJoin _ _ ih => exact ih
  | filter _ ih => exact ih
  | extend _ ih => exact ih

/-- Every row number that a binding hands out is read by exactly one candidate, and in no block of
an optimised tree do two candidates read the same row. -/
theorem rows_apart_in_blocks (m : Mapping) (ps : List GraphPattern) (limit : Nat) :
    (∀ n, (candidatesAll (bindAll m 0 ps).1).countP (fun c => decide (n ∈ c.rowNumbers)) =
      if n < (bindAll m 0 ps).2 then 1 else 0) ∧
    ∀ t ∈ (bindAll m 0 ps).1, ∀ s ∈ (t.optimise limit).nodes,
      s.blockCandidates.Pairwise fun x y => x.rowNumbers.Disjoint y.rowNumbers := by
  constructor
  · intro n
    have hcount := (consecutive_bindAll m ps 0).countP_eq n
    simpa only [Nat.zero_le, true_and] using hcount
  · intro t ht s hs
    have hbound : t.Apart := apart_of_candidatesAll _ (numbered_bindAll m ps 0).apart t ht
    exact ((hbound.optimise limit).of_mem_nodes s hs).pairwise_blockCandidates

/-- Names from two tables, joined with the bosses of one of them. A candidate with a boss reads two
rows, and distribution joins it with either name. -/
theorem rows_apart_in_blocks_bosses :
    let table (name : String) : LogicalTable := ⟨.table name, [⟨"id", .integer, false⟩,
      ⟨"name", .string, false⟩, ⟨"boss", .integer, true⟩]⟩
    let subject : TermMap :=
      ⟨.template "http://x/{id}" [.text "http://x/", .column "id"], .iri, none, none⟩
    let names : PredicateObjectMap :=
      ⟨[.ofIri "http://x/name"], [.term ⟨.column "name", .literal, none, none⟩]⟩
    let bosses : PredicateObjectMap := ⟨[.ofIri "http://x/boss"], [.reference 1 [⟨"boss", "id"⟩]]⟩
    let m : Mapping := ⟨[⟨0, "a", table "a", subject, [names, bosses]⟩,
      ⟨1, "b", table "b", subject, [names]⟩]⟩
    let p : GraphPattern := .join [.triple ⟨.var "s", .iri "http://x/name", .var "n"⟩,
      .triple ⟨.var "s", .iri "http://x/boss", .var "b"⟩]
    let bound := bindAll m 0 [p]
    bound.2 = 8 ∧ (candidatesAll bound.1).countP (fun c => decide (6 ∈ c.rowNumbers)) = 1 ∧
      ∃ t ∈ bound.1, ∃ s ∈ (t.optimise 64).nodes,
        s.blockCandidates.map Candidate.rowNumbers = [[3], [5, 6]] ∧
          s.blockCandidates.Pairwise fun x y => x.rowNumbers.Disjoint y.rowNumbers := by
  intro table subject names bosses m p bound
  obtain ⟨hcount, hblocks⟩ := rows_apart_in_blocks m [p] 64
  have hnodes : [[3], [5, 6]] ∈ ((bind m 0 p).1.optimise 64).nodes.map
      fun s => s.blockCandidates.map Candidate.rowNumbers := by
    decide +kernel
  obtain ⟨s, hs, hrows⟩ := List.mem_map.mp hnodes
  have ht : (bind m 0 p).1 ∈ bound.1 := List.mem_cons_self
  exact ⟨rfl, hcount 6, (bind m 0 p).1, ht, s, hs, hrows, hblocks _ ht s hs⟩

end BoundTree

end VirtualGraph
