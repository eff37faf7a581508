import VirtualGraph.Proofs.Bound.Distribution
import VirtualGraph.Proofs.Bound.Plain

/-!
# Row numbers of bound trees

Binding numbers the rows of all candidates without repetition, so two candidates of one binding
never read the same row. Pruning and distribution may write a candidate into several branches of a
union, but two members of a join still have no row in common.
-/

namespace VirtualGraph

namespace Candidate

/-- The numbers of the rows that are read. -/
def rowNumbers (c : Candidate) : List Nat := c.rows.map (·.1)

@[simp] theorem pattern_ofRule (pattern : TriplePattern) (row : Nat) (rule : Rule) :
    (ofRule pattern row rule).1.pattern = pattern := by
  unfold ofRule
  split
  · rfl
  · split <;> rfl

/-- A candidate reads exactly the rows that were numbered for it. -/
theorem rowNumbers_ofRule (pattern : TriplePattern) (row : Nat) (rule : Rule) :
    (ofRule pattern row rule).1.rowNumbers =
      List.range' row ((ofRule pattern row rule).2 - row) := by
  obtain ⟨map, predicate, object⟩ := rule
  cases object with
  | term => simp [ofRule, rowNumbers, rows]
  | parent parent joins =>
    unfold ofRule
    split
    · rename_i hobject
      cases hobject
    · rename_i hobject
      cases hobject
      split <;> simp [rowNumbers, rows, List.range']

theorem lt_next_ofRule (pattern : TriplePattern) (row : Nat) (rule : Rule) :
    row < (ofRule pattern row rule).2 := by
  unfold ofRule
  split
  · exact Nat.lt_succ_self row
  · split
    · exact Nat.lt_succ_self row
    · exact Nat.lt_add_of_pos_right Nat.two_pos

/-- Candidates that read the rows of a range in order, each row once. -/
def Consecutive (first next : Nat) (cs : List Candidate) : Prop :=
  first ≤ next ∧ cs.flatMap rowNumbers = List.range' first (next - first)

/-- Candidates with row numbers in a range, no two of which read the same row. -/
structure Numbered (first next : Nat) (cs : List Candidate) : Prop where
  le : first ≤ next
  within : ∀ c ∈ cs, ∀ n ∈ c.rowNumbers, first ≤ n ∧ n < next
  apart : cs.Pairwise fun c c' => c.rowNumbers.Disjoint c'.rowNumbers

variable {first middle next : Nat} {cs cs' : List Candidate}

theorem row_mem_rowNumbers (c : Candidate) : c.row ∈ c.rowNumbers := by
  rw [rowNumbers, rows]
  split
  · split <;> exact List.mem_cons_self
  · exact List.mem_cons_self

theorem Numbered.nodup (h : Numbered first next cs) : cs.Nodup := by
  refine h.apart.imp fun {c c'} hdisjoint heq => ?_
  exact hdisjoint c.row_mem_rowNumbers (heq ▸ c.row_mem_rowNumbers)

theorem consecutive_nil (row : Nat) : Consecutive row row [] := ⟨Nat.le_refl row, by simp⟩

theorem Consecutive.append (h : Consecutive first middle cs) (h' : Consecutive middle next cs') :
    Consecutive first next (cs ++ cs') := by
  obtain ⟨hle, hcs⟩ := h
  obtain ⟨hle', hcs'⟩ := h'
  refine ⟨hle.trans hle', ?_⟩
  have hmiddle : middle = first + (middle - first) := by omega
  have hnext : middle - first + (next - middle) = next - first := by omega
  rw [List.flatMap_append, hcs, hcs', ← hnext, ← List.range'_append_1, ← hmiddle]

theorem Consecutive.numbered (h : Consecutive first next cs) : Numbered first next cs := by
  obtain ⟨hle, hcs⟩ := h
  refine ⟨hle, fun c hc n hn => ?_, ?_⟩
  · have hmem : n ∈ List.range' first (next - first) := hcs ▸ List.mem_flatMap.mpr ⟨c, hc, hn⟩
    rw [List.mem_range'_1] at hmem
    omega
  · have hnodup : (cs.flatMap rowNumbers).Nodup := hcs ▸ List.nodup_range' ..
    exact (List.nodup_flatMap.mp hnodup).2

theorem consecutive_ofRules (pattern : TriplePattern) (row : Nat) (rules : List Rule) :
    Consecutive row (ofRules pattern row rules).2 (ofRules pattern row rules).1 := by
  induction rules generalizing row with
  | nil => exact consecutive_nil row
  | cons rule rules ih =>
    have hfirst : Consecutive row (ofRule pattern row rule).2 [(ofRule pattern row rule).1] :=
      ⟨(lt_next_ofRule pattern row rule).le, by rw [List.flatMap_singleton, rowNumbers_ofRule]⟩
    exact hfirst.append (ih _)

theorem exists_of_mem_ofRules {pattern : TriplePattern} {row : Nat} {rules : List Rule}
    {c : Candidate} (h : c ∈ (ofRules pattern row rules).1) :
    ∃ rule ∈ rules, ∃ n, c = (ofRule pattern n rule).1 := by
  induction rules generalizing row with
  | nil => exact absurd h List.not_mem_nil
  | cons rule rules ih =>
    obtain rfl | h := List.mem_cons.mp h
    · exact ⟨rule, List.mem_cons_self, row, rfl⟩
    · obtain ⟨rule', hrule, hc⟩ := ih h
      exact ⟨rule', List.mem_cons_of_mem rule hrule, hc⟩

end Candidate

namespace BoundTree

mutual

/-- The candidates of a tree, in order and with repetitions. -/
def candidates : BoundTree → List Candidate
  | noMatch => []
  | unit => []
  | triple c => [c]
  | join members => candidatesAll members
  | union branches => candidatesAll branches
  | leftJoin left right _ => candidates left ++ candidates right
  | filter _ inner => candidates inner
  | extend inner _ _ => candidates inner

def candidatesAll : List BoundTree → List Candidate
  | [] => []
  | t :: rest => candidates t ++ candidatesAll rest

end

variable {t c : BoundTree} {ts cs flat : List BoundTree} {x : Candidate}

theorem candidatesAll_eq_flatMap (ts : List BoundTree) :
    candidatesAll ts = ts.flatMap candidates := by
  induction ts with
  | nil => rfl
  | cons t ts ih => rw [candidatesAll, ih, List.flatMap_cons]

theorem mem_candidatesAll : x ∈ candidatesAll ts ↔ ∃ t ∈ ts, x ∈ t.candidates := by
  rw [candidatesAll_eq_flatMap, List.mem_flatMap]

theorem candidatesAll_triple (xs : List Candidate) : candidatesAll (xs.map triple) = xs := by
  rw [candidatesAll_eq_flatMap, List.flatMap_map]
  exact List.flatMap_singleton' xs

theorem candidates_ofBranches (ts : List BoundTree) :
    (ofBranches ts).candidates = candidatesAll ts := by
  match ts with
  | [] => rfl
  | [t] => exact (List.append_nil _).symm
  | _ :: _ :: _ => rfl

/-- The numbers of the rows that the candidates of a tree read. -/
def rowNumbers (t : BoundTree) : List Nat := t.candidates.flatMap Candidate.rowNumbers

theorem rowNumbers_mono (h : c.candidates ⊆ t.candidates) : c.rowNumbers ⊆ t.rowNumbers := by
  intro n hn
  obtain ⟨x, hx, hn⟩ := List.mem_flatMap.mp hn
  exact List.mem_flatMap.mpr ⟨x, h hx, hn⟩

theorem rowNumbers_join_cons (t : BoundTree) (ts : List BoundTree) :
    (join (t :: ts)).rowNumbers = t.rowNumbers ++ (join ts).rowNumbers :=
  List.flatMap_append

theorem mem_rowNumbers_join {n : Nat} :
    n ∈ (join ts).rowNumbers ↔ ∃ t ∈ ts, n ∈ t.rowNumbers := by
  induction ts with
  | nil => simp [rowNumbers, candidates, candidatesAll]
  | cons t ts ih => simp [rowNumbers_join_cons, ih]

/-- If no two candidates read the same row, no two members of a join do. -/
theorem pairwise_rowNumbers_of_candidates
    (h : (candidatesAll ts).Pairwise fun x y => x.rowNumbers.Disjoint y.rowNumbers) :
    (∀ t ∈ ts, t.candidates.Pairwise fun x y => x.rowNumbers.Disjoint y.rowNumbers) ∧
      ts.Pairwise fun s t => s.rowNumbers.Disjoint t.rowNumbers := by
  rw [candidatesAll_eq_flatMap, List.pairwise_flatMap] at h
  refine ⟨h.1, h.2.imp fun hapart n hn hn' => ?_⟩
  obtain ⟨x, hx, hn⟩ := List.mem_flatMap.mp hn
  obtain ⟨y, hy, hn'⟩ := List.mem_flatMap.mp hn'
  exact hapart x hx y hy hn hn'

/-! ### Binding -/

mutual

/-- Binding numbers the rows of its candidates in order. -/
theorem consecutive_bind (m : Mapping) : ∀ (p : GraphPattern) (row : Nat),
    Candidate.Consecutive row (bind m row p).2 (bind m row p).1.candidates
  | .unit, row => Candidate.consecutive_nil row
  | .triple pattern, row => by
    have h := Candidate.consecutive_ofRules pattern row m.rules
    rwa [← candidatesAll_triple (Candidate.ofRules pattern row m.rules).1,
      ← candidates_ofBranches] at h
  | .join members, row => consecutive_bindAll m members row
  | .union branches, row => consecutive_bindAll m branches row
  | .leftJoin left right _, row =>
    (consecutive_bind m left row).append (consecutive_bind m right _)
  | .filter _ inner, row => consecutive_bind m inner row
  | .extend inner _ _, row => consecutive_bind m inner row

theorem consecutive_bindAll (m : Mapping) : ∀ (ps : List GraphPattern) (row : Nat),
    Candidate.Consecutive row (bindAll m row ps).2 (candidatesAll (bindAll m row ps).1)
  | [], row => Candidate.consecutive_nil row
  | p :: rest, row => (consecutive_bind m p row).append (consecutive_bindAll m rest _)

end

/-- Binding numbers the rows of all candidates apart. -/
theorem numbered_bind (m : Mapping) (p : GraphPattern) (row : Nat) :
    Candidate.Numbered row (bind m row p).2 (bind m row p).1.candidates :=
  (consecutive_bind m p row).numbered

theorem numbered_bindAll (m : Mapping) (ps : List GraphPattern) (row : Nat) :
    Candidate.Numbered row (bindAll m row ps).2 (candidatesAll (bindAll m row ps).1) :=
  (consecutive_bindAll m ps row).numbered

/-- Different candidates of one binding read no common row. -/
theorem pairwise_of_mem_bindAll {m : Mapping} {ps : List GraphPattern} {row : Nat}
    {xs : List Candidate} (hbound : xs ⊆ candidatesAll (bindAll m row ps).1) (honce : xs.Nodup) :
    xs.Pairwise fun x y => x.rowNumbers.Disjoint y.rowNumbers := by
  have : Std.Symm fun x y : Candidate => x.rowNumbers.Disjoint y.rowNumbers :=
    ⟨fun _ _ h => h.symm⟩
  refine List.Pairwise.imp_of_mem (fun hx hy hne => ?_) honce
  exact (numbered_bindAll m ps row).apart.forall (hbound hx) (hbound hy) hne

mutual

/-- Every candidate of a bound pattern comes from a rule of the mapping. -/
theorem exists_rule_of_mem_bind (m : Mapping) : ∀ (p : GraphPattern) (row : Nat),
    ∀ x ∈ (bind m row p).1.candidates,
      ∃ rule ∈ m.rules, ∃ n, x = (Candidate.ofRule x.pattern n rule).1
  | .unit, _, _, hx => absurd hx List.not_mem_nil
  | .triple pattern, row, x, hx => by
    have hmem : x ∈ (Candidate.ofRules pattern row m.rules).1 := by
      rwa [bind, candidates_ofBranches, candidatesAll_triple] at hx
    obtain ⟨rule, hrule, n, rfl⟩ := Candidate.exists_of_mem_ofRules hmem
    exact ⟨rule, hrule, n, by rw [Candidate.pattern_ofRule]⟩
  | .join members, row, x, hx => exists_rule_of_mem_bindAll m members row x hx
  | .union branches, row, x, hx => exists_rule_of_mem_bindAll m branches row x hx
  | .leftJoin left right _, row, x, hx => by
    obtain hx | hx := List.mem_append.mp hx
    · exact exists_rule_of_mem_bind m left row x hx
    · exact exists_rule_of_mem_bind m right _ x hx
  | .filter _ inner, row, x, hx => exists_rule_of_mem_bind m inner row x hx
  | .extend inner _ _, row, x, hx => exists_rule_of_mem_bind m inner row x hx

theorem exists_rule_of_mem_bindAll (m : Mapping) : ∀ (ps : List GraphPattern) (row : Nat),
    ∀ x ∈ candidatesAll (bindAll m row ps).1,
      ∃ rule ∈ m.rules, ∃ n, x = (Candidate.ofRule x.pattern n rule).1
  | [], _, _, hx => absurd hx List.not_mem_nil
  | p :: rest, row, x, hx => by
    obtain hx | hx := List.mem_append.mp hx
    · exact exists_rule_of_mem_bind m p row x hx
    · exact exists_rule_of_mem_bindAll m rest _ x hx

end

/-! ### Optimisation -/

theorem candidatesAll_mono (h : cs ⊆ ts) : candidatesAll cs ⊆ candidatesAll ts := by
  intro x hx
  obtain ⟨t, ht, hx⟩ := mem_candidatesAll.mp hx
  exact mem_candidatesAll.mpr ⟨t, h ht, hx⟩

mutual

theorem candidates_prune : ∀ t : BoundTree, t.prune.candidates ⊆ t.candidates
  | noMatch => List.Subset.refl _
  | unit => List.Subset.refl _
  | triple c => by
    rw [prune]
    split
    · exact List.Subset.refl _
    · exact List.nil_subset _
  | join members => candidatesAll_pruneAll members
  | union branches => by
    rw [prune, candidates_ofBranches]
    exact List.Subset.trans (candidatesAll_mono (List.filter_subset_self _))
      (candidatesAll_pruneAll branches)
  | leftJoin left right _ => append_subset_append (candidates_prune left) (candidates_prune right)
  | filter _ inner => candidates_prune inner
  | extend inner _ _ => candidates_prune inner

theorem candidatesAll_pruneAll :
    ∀ ts : List BoundTree, candidatesAll (pruneAll ts) ⊆ candidatesAll ts
  | [] => List.Subset.refl _
  | t :: rest => append_subset_append (candidates_prune t) (candidatesAll_pruneAll rest)

end

theorem candidatesAll_append (l r : List BoundTree) :
    candidatesAll (l ++ r) = candidatesAll l ++ candidatesAll r := by
  simp only [candidatesAll_eq_flatMap, List.flatMap_append]

theorem candidatesAll_flatten? (hflat : flatten? ts = some flat) :
    candidatesAll flat = candidatesAll ts := by
  induction ts generalizing flat with
  | nil =>
    cases hflat
    rfl
  | cons t ts ih =>
    cases t with
    | noMatch => cases hflat
    | unit => exact ih hflat
    | join nested =>
      obtain ⟨flat, hrest, rfl⟩ := Option.map_eq_some_iff.mp hflat
      rw [candidatesAll_append, ih hrest]
      rfl
    | _ =>
      obtain ⟨flat, hrest, rfl⟩ := Option.map_eq_some_iff.mp hflat
      rw [candidatesAll, ih hrest, candidatesAll]

theorem candidates_of_mem_choices (hc : c ∈ t.choices) : c.candidates ⊆ t.candidates := by
  cases t with
  | union branches => exact fun x hx => mem_candidatesAll.mpr ⟨c, hc, hx⟩
  | _ => exact List.mem_singleton.mp hc ▸ List.Subset.refl _

theorem candidatesAll_of_mem_combinations (hcs : cs ∈ combinations ts) :
    candidatesAll cs ⊆ candidatesAll ts := by
  induction ts generalizing cs with
  | nil => exact List.mem_singleton.mp hcs ▸ List.Subset.refl _
  | cons t ts ih =>
    obtain ⟨c, hc, hcs⟩ := List.mem_flatMap.mp hcs
    obtain ⟨rest, hrest, rfl⟩ := List.mem_map.mp hcs
    exact append_subset_append (candidates_of_mem_choices hc) (ih hrest)

theorem candidates_joinAll (limit : Nat) (ts : List BoundTree) :
    (joinAll limit ts).1.candidates ⊆ candidatesAll ts := by
  induction ts using joinAll_induction with
  | noMatch => exact List.nil_subset _
  | unit => exact List.nil_subset _
  | single ts t hflat =>
    rw [← candidatesAll_flatten? hflat]
    exact List.subset_append_left _ _
  | branches ts flat hflat ih =>
    rw [candidates_ofBranches, ← candidatesAll_flatten? hflat]
    intro x hx
    obtain ⟨t, ht, hx⟩ := mem_candidatesAll.mp hx
    obtain ⟨cs, hcs, rfl⟩ := List.mem_map.mp (List.mem_filter.mp ht).1
    exact candidatesAll_of_mem_combinations hcs (ih cs hcs hx)
  | join ts flat hflat =>
    rw [← candidatesAll_flatten? hflat]
    exact List.Subset.refl _
  | incompatible => exact List.nil_subset _

theorem candidatesAll_flattenUnion (ts : List BoundTree) :
    candidatesAll (flattenUnion ts) = candidatesAll ts := by
  induction ts with
  | nil => rfl
  | cons t ts ih =>
    cases t with
    | noMatch => exact ih
    | union nested =>
      rw [flattenUnion, candidatesAll_append, ih]
      rfl
    | _ => rw [flattenUnion, candidatesAll, ih, candidatesAll] <;> simp

mutual

theorem candidates_distribute (limit : Nat) : ∀ t : BoundTree,
    (distribute limit t).1.candidates ⊆ t.candidates
  | noMatch => List.Subset.refl _
  | unit => List.Subset.refl _
  | triple _ => List.Subset.refl _
  | join members =>
    List.Subset.trans (candidates_joinAll limit _) (candidatesAll_distributeAll limit members)
  | union branches => by
    simp only [distribute]
    rw [candidates_ofBranches, candidatesAll_flattenUnion]
    exact candidatesAll_distributeAll limit branches
  | leftJoin left right condition => by
    have hleft := candidates_distribute limit left
    have hright := candidates_distribute limit right
    simp only [distribute]
    split
    · exact List.nil_subset _
    · split
      · exact List.Subset.trans hleft (List.subset_append_left _ _)
      · exact append_subset_append hleft hright
  | filter condition inner => by
    have hinner := candidates_distribute limit inner
    simp only [distribute]
    split
    · exact List.nil_subset _
    · exact hinner
  | extend inner name value => by
    have hinner := candidates_distribute limit inner
    simp only [distribute]
    split
    · exact List.nil_subset _
    · exact hinner

theorem candidatesAll_distributeAll (limit : Nat) : ∀ ts : List BoundTree,
    candidatesAll (distributeAll limit ts).1 ⊆ candidatesAll ts
  | [] => List.Subset.refl _
  | t :: rest =>
    append_subset_append (candidates_distribute limit t) (candidatesAll_distributeAll limit rest)

end

end BoundTree

end VirtualGraph
