import VirtualGraph.Mapping.Load
import VirtualGraph.Proofs.Bound.Rows
import VirtualGraph.Proofs.Result

/-!
# Candidates of a loaded mapping

The triples maps of a loaded mapping stand at the places of their numbers. So a parent with the
number of the child's own triples map is that triples map, and a candidate that takes parent and
child from one row reads the table of both.
-/

namespace VirtualGraph

/-! ### Term maps -/

def ObjectMap.termMaps : ObjectMap → List TermMap
  | term map => [map]
  | reference _ _ => []

def PredicateObjectMap.termMaps (m : PredicateObjectMap) : List TermMap :=
  m.predicates ++ m.objects.flatMap ObjectMap.termMaps

/-- The term maps that make terms from the rows of a triples map. -/
def TriplesMap.termMaps (m : TriplesMap) : List TermMap :=
  m.subject :: m.predicateObjectMaps.flatMap PredicateObjectMap.termMaps

/-! ### Numbers of triples maps -/

namespace Mapping

variable {m : Mapping}

/-- Every triples map stands at the place of its number. -/
def Numbered (m : Mapping) : Prop := ∀ id map, m.triplesMap? id = some map → map.id = id

theorem loadTriplesMaps_meets (index : TableIndex) (l : List (LogicalTable × TriplesMapDefinition))
    (id : Nat) : (loadTriplesMaps index id l).Meets Fault.Any fun maps =>
      ∀ i map, maps[i]? = some map → map.id = id + i := by
  induction l generalizing id with
  | nil => exact fun i map h => by cases h
  | cons entry l ih =>
    obtain ⟨table, d⟩ := entry
    have hfirst : (d.load index id table).Meets Fault.Any fun map => map.id = id :=
      (Result.meets_any _).bind fun _ _ => (Result.meets_any _).bind fun _ _ => rfl
    refine hfirst.bind fun map hmap => (ih (id + 1)).bind fun maps hmaps i map' hi => ?_
    cases i with
    | zero =>
      cases hi
      exact hmap
    | succ i =>
      have hnumber := hmaps i map' hi
      omega

theorem numbered_of_load {ds : List TriplesMapDefinition} (h : ofDefinitions ds = .ok m) :
    m.Numbered := by
  have hload : (ofDefinitions ds).Meets Fault.Any Numbered := by
    unfold ofDefinitions
    split
    · trivial
    · refine (Result.meets_any _).bind fun tables _ => (loadTriplesMaps_meets _ _ 0).bind
        fun maps hmaps id map hid => ?_
      exact (hmaps id map hid).trans (Nat.zero_add id)
  rw [h] at hload
  exact hload

/-- A triples map with the number of another one is that one. -/
theorem Numbered.eq_of_id_eq (h : m.Numbered) {map map' : TriplesMap} (hmap : map ∈ m.triplesMaps)
    (hmap' : map' ∈ m.triplesMaps) (hid : map.id = map'.id) : map = map' := by
  obtain ⟨i, hi⟩ := List.mem_iff_getElem?.mp hmap
  obtain ⟨j, hj⟩ := List.mem_iff_getElem?.mp hmap'
  have hij : i = j := (h i map hi).symm.trans (hid.trans (h j map' hj))
  subst hij
  exact Option.some_inj.mp (hi.symm.trans hj)

theorem mem_triplesMaps_of_parent {object : ObjectMap} {parent : TriplesMap}
    {joins : List JoinCondition} (h : m.ruleObject? object = some (.parent parent joins)) :
    parent ∈ m.triplesMaps := by
  cases object with
  | term map => cases h
  | reference id joins' =>
    obtain ⟨map, hmap, heq⟩ := Option.map_eq_some_iff.mp h
    cases heq
    exact List.mem_of_getElem? hmap

theorem eq_term_of_ruleObject? {object : ObjectMap} {map : TermMap}
    (h : m.ruleObject? object = some (.term map)) : object = .term map := by
  cases object with
  | term map' =>
    cases h
    rfl
  | reference id joins =>
    obtain ⟨_, _, heq⟩ := Option.map_eq_some_iff.mp h
    cases heq

theorem mem_rules {rule : Rule} (h : rule ∈ m.rules) :
    rule.map ∈ m.triplesMaps ∧
      ∃ pom ∈ rule.map.predicateObjectMaps, rule.predicate ∈ pom.predicates ∧
      ∃ object ∈ pom.objects, m.ruleObject? object = some rule.object := by
  obtain ⟨map, hmap, h⟩ := List.mem_flatMap.mp h
  obtain ⟨pom, hpom, h⟩ := List.mem_flatMap.mp h
  obtain ⟨predicate, hpredicate, h⟩ := List.mem_flatMap.mp h
  obtain ⟨object, hobject, h⟩ := List.mem_filterMap.mp h
  obtain ⟨o, ho, rfl⟩ := Option.map_eq_some_iff.mp h
  exact ⟨hmap, pom, hpom, hpredicate, object, hobject, ho⟩

end Mapping

namespace Candidate

/-- A candidate whose terms are made by a mapping from rows that it reads. -/
structure Over (m : Mapping) (c : Candidate) : Prop where
  sourced : ∀ p, (c.source p).2 ∈ c.rows
  tables : ∀ r ∈ c.rows, ∃ map ∈ m.triplesMaps, r.2 = map.table
  made : ∀ p, ∃ map ∈ m.triplesMaps, (c.source p).1 ∈ map.termMaps ∧ (c.source p).2.2 = map.table

section

variable {m : Mapping} {pattern : TriplePattern} {map parent : TriplesMap} {row : Nat}
variable {predicate : TermMap} (hmap : map ∈ m.triplesMaps) (hpredicate : predicate ∈ map.termMaps)

include hmap hpredicate

theorem over_term {object : TermMap} (hobject : object ∈ map.termMaps) :
    Over m ⟨pattern, map, row, predicate, .term object⟩ := by
  refine ⟨fun p => ?_, fun r hr => ⟨map, hmap, congrArg Prod.snd (List.mem_singleton.mp hr)⟩,
    fun p => ⟨map, hmap, ?_⟩⟩
  · cases p <;> exact List.mem_singleton_self _
  · cases p
    · exact ⟨List.mem_cons_self, rfl⟩
    · exact ⟨hpredicate, rfl⟩
    · exact ⟨hobject, rfl⟩

/-- A parent in the candidate's own row has to have its table. -/
theorem over_parent (hparent : parent ∈ m.triplesMaps) {n : Nat} {joins : List JoinCondition}
    (hsame : n = row → parent = map) :
    Over m ⟨pattern, map, row, predicate, .parent parent n joins⟩ := by
  have hrows : ∀ r, r ∈ rows ⟨pattern, map, row, predicate, .parent parent n joins⟩ ↔
      r = (row, map.table) ∨ r = (n, parent.table) := by
    intro r
    by_cases hn : n = row
    · obtain rfl := hn
      obtain rfl := hsame rfl
      simp [rows]
    · simp [rows, hn]
  refine ⟨fun p => (hrows _).mpr ?_, fun r hr => ?_, fun p => ?_⟩
  · cases p
    · exact .inl rfl
    · exact .inl rfl
    · exact .inr rfl
  · obtain rfl | rfl := (hrows r).mp hr
    · exact ⟨map, hmap, rfl⟩
    · exact ⟨parent, hparent, rfl⟩
  · cases p
    · exact ⟨map, hmap, List.mem_cons_self, rfl⟩
    · exact ⟨map, hmap, hpredicate, rfl⟩
    · exact ⟨parent, hparent, List.mem_cons_self, rfl⟩

end

theorem over_ofRule {m : Mapping} (hm : m.Numbered) (pattern : TriplePattern) (row : Nat)
    {rule : Rule} (hrule : rule ∈ m.rules) : (ofRule pattern row rule).1.Over m := by
  obtain ⟨hmap, pom, hpom, hpredicate, object, hobject, ho⟩ := Mapping.mem_rules hrule
  have hmaps : pom.termMaps ⊆ rule.map.termMaps := fun s hs =>
    List.mem_cons_of_mem _ (List.mem_flatMap.mpr ⟨pom, hpom, hs⟩)
  have hpredicate : rule.predicate ∈ rule.map.termMaps := hmaps (List.mem_append_left _ hpredicate)
  obtain ⟨map, predicate, o⟩ := rule
  cases o with
  | term objectMap =>
    refine over_term hmap hpredicate (hmaps (List.mem_append_right _ ?_))
    obtain rfl := Mapping.eq_term_of_ruleObject? ho
    exact List.mem_flatMap.mpr ⟨_, hobject, List.mem_singleton_self _⟩
  | parent parent joins =>
    have hparent := Mapping.mem_triplesMaps_of_parent ho
    unfold ofRule
    split
    · rename_i heq
      cases heq
    · rename_i heq
      cases heq
      split
      · rename_i hsame
        exact over_parent hmap hpredicate hparent fun _ => hm.eq_of_id_eq hparent hmap hsame.1
      · exact over_parent hmap hpredicate hparent fun hrow => absurd hrow (Nat.succ_ne_self row)

end Candidate

namespace BoundTree

theorem over_bind {m : Mapping} (hm : m.Numbered) (p : GraphPattern) (row : Nat) {c : Candidate}
    (hc : c ∈ (bind m row p).1.candidates) : c.Over m := by
  obtain ⟨rule, hrule, n, heq⟩ := exists_rule_of_mem_bind m p row c hc
  rw [heq]
  exact Candidate.over_ofRule hm c.pattern n hrule

theorem over_bindAll {m : Mapping} (hm : m.Numbered) (ps : List GraphPattern) (row : Nat)
    {c : Candidate} (hc : c ∈ candidatesAll (bindAll m row ps).1) : c.Over m := by
  obtain ⟨rule, hrule, n, heq⟩ := exists_rule_of_mem_bindAll m ps row c hc
  rw [heq]
  exact Candidate.over_ofRule hm c.pattern n hrule

end BoundTree

end VirtualGraph
