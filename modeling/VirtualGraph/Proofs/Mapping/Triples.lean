import VirtualGraph.Proofs.Draft.Patterns
import VirtualGraph.Proofs.Mapping.Loaded

/-!
# The triples that a mapping generates

A mapping generates triples by itself, without any query: for each triples map, predicate and
object, one triple for each row in which no column that is read is null. A reference relates rows to
parent rows, by its join conditions if it has any. Without them, which is allowed over one source
only, every row is its own parent.

A bound triple pattern has the solutions with which the generated triples match it, unless a
reference without join conditions names another triples map. The parent of such a reference is read
from a row of its own, so that every row of the source is paired with every other. Nothing is lost
by this while the source has at most one row.
-/

namespace VirtualGraph

variable {α : Type}

/-- A triple of terms. -/
structure RdfTriple where
  subject : RdfTerm
  predicate : RdfTerm
  object : RdfTerm
  deriving DecidableEq

/-! ### Matching -/

namespace Solution

/-- The solution with the variables bound that make a term of a pattern stand for a given term, if
it can. -/
def extend? (a : Solution) : Term → RdfTerm → Option Solution
  | .var name, x =>
    match a name with
    | none => some (a.bind name (some x))
    | some y => if y = x then some a else none
  | term, x => if RdfTerm.ofConstant? term = some x then some a else none

/-- Extends a solution by one term of a pattern after the other. -/
def extendAll? (a : Solution) : List (Term × RdfTerm) → Option Solution
  | [] => some a
  | (term, x) :: rest => (a.extend? term x).bind (·.extendAll? rest)

/-- A solution in which a term of a pattern stands for a given term. -/
def Stands (a : Solution) (e : Term × RdfTerm) : Prop :=
  (∀ name, e.1 = .var name → a name = some e.2) ∧ ∀ x, RdfTerm.ofConstant? e.1 = some x → x = e.2

/-- The solution with each variable bound to the first term that it meets. -/
def withFirsts (a : Solution) (l : List (Term × RdfTerm)) : Solution := fun name =>
  (a name).or ((l.find? (·.1 = .var name)).map (·.2))

variable {a b c : Solution} {l : List (Term × RdfTerm)} {x : RdfTerm} {name : String}

theorem withFirsts_var_of_none (h : a name = none) :
    a.withFirsts ((.var name, x) :: l) = (a.bind name (some x)).withFirsts l := by
  funext n
  by_cases hn : n = name
  · subst hn
    simp [withFirsts, Solution.bind, h]
  · have hne : ¬Term.var name = .var n := fun heq => hn (Term.var.inj heq).symm
    simp [withFirsts, Solution.bind, hn, hne]

theorem withFirsts_var_of_some {y : RdfTerm} (h : a name = some y) :
    a.withFirsts ((.var name, x) :: l) = a.withFirsts l := by
  funext n
  by_cases hn : n = name
  · subst hn
    simp [withFirsts, h]
  · have hne : ¬Term.var name = .var n := fun heq => hn (Term.var.inj heq).symm
    simp [withFirsts, hne]

theorem withFirsts_constant {term : Term} (h : ∀ name, term ≠ .var name) :
    a.withFirsts ((term, x) :: l) = a.withFirsts l := by
  funext n
  simp [withFirsts, h n]

theorem withFirsts_of_some (h : a name = some x) : a.withFirsts l name = some x := by
  rw [withFirsts, h, Option.some_or]

/-- A variable meets its first term, or the term that it is bound to already. -/
theorem extend?_var_eq_some : a.extend? (.var name) x = some c ↔
    (a name = none ∧ c = a.bind name (some x)) ∨ (a name = some x ∧ c = a) := by
  rw [extend?]
  cases ha : a name with
  | none => simp [eq_comm]
  | some y =>
    by_cases hy : y = x
    · simp [hy, eq_comm]
    · simp [hy]

theorem extend?_constant_eq_some {term : Term} (h : ∀ name, term ≠ .var name) :
    a.extend? term x = some c ↔ RdfTerm.ofConstant? term = some x ∧ c = a := by
  cases term with
  | var name => exact absurd rfl (h name)
  | _ =>
    rw [extend?, Option.ite_none_right_eq_some, Option.some_inj, eq_comm (a := c)]
    exact h

theorem stands_var : b.Stands (.var name, x) ↔ b name = some x := by
  refine ⟨fun h => h.1 name rfl, fun h => ⟨fun n hn => Term.var.inj hn ▸ h, fun y hy => ?_⟩⟩
  cases hy

theorem stands_constant {term : Term} (h : ∀ name, term ≠ .var name) :
    b.Stands (term, x) ↔ RdfTerm.ofConstant? term = some x := by
  constructor
  · intro hstands
    cases term with
    | var name => exact absurd rfl (h name)
    | _ => exact congrArg some (hstands.2 _ rfl)
  · intro hx
    refine ⟨fun name hname => absurd hname (h name), fun y hy => ?_⟩
    exact Option.some_inj.mp (hy.symm.trans hx)

/-- Every variable is bound to the first term that it meets, and that must fit everywhere. -/
theorem extendAll?_eq_some :
    a.extendAll? l = some b ↔ b = a.withFirsts l ∧ ∀ e ∈ l, b.Stands e := by
  induction l generalizing a with
  | nil =>
    have hself : a.withFirsts [] = a := funext fun _ => Option.or_none
    simp [extendAll?, hself, eq_comm]
  | cons e l ih =>
    obtain ⟨term, x⟩ := e
    rw [extendAll?, Option.bind_eq_some_iff, List.forall_mem_cons]
    by_cases hterm : ∃ name, term = .var name
    · obtain ⟨name, rfl⟩ := hterm
      simp only [extend?_var_eq_some, stands_var, ih]
      constructor
      · rintro ⟨c, ⟨ha, rfl⟩ | ⟨ha, rfl⟩, rfl, hl⟩
        · rw [← withFirsts_var_of_none ha] at hl ⊢
          exact ⟨rfl, by simp [withFirsts, ha], hl⟩
        · rw [withFirsts_var_of_some ha]
          exact ⟨rfl, withFirsts_of_some ha, hl⟩
      · rintro ⟨rfl, hx, hl⟩
        cases ha : a name with
        | none =>
          rw [withFirsts_var_of_none ha] at hl ⊢
          exact ⟨_, .inl ⟨rfl, rfl⟩, rfl, hl⟩
        | some y =>
          rw [withFirsts_of_some ha] at hx
          rw [withFirsts_var_of_some ha] at hl ⊢
          exact ⟨a, .inr ⟨hx, rfl⟩, rfl, hl⟩
    · have hconstant : ∀ name, term ≠ .var name := fun name h => hterm ⟨name, h⟩
      simp only [extend?_constant_eq_some hconstant, stands_constant hconstant, ih,
        withFirsts_constant hconstant]
      constructor
      · rintro ⟨c, ⟨hx, rfl⟩, rfl, hl⟩
        exact ⟨rfl, hx, hl⟩
      · rintro ⟨rfl, hx, hl⟩
        exact ⟨a, ⟨hx, rfl⟩, rfl, hl⟩

end Solution

namespace TriplePattern

/-- The solution with which a triple matches the pattern, if it does. -/
def match? (p : TriplePattern) (t : RdfTriple) : Option Solution :=
  Solution.empty.extendAll?
    [(p.subject, t.subject), (p.predicate, t.predicate), (p.object, t.object)]

end TriplePattern

/-! ### Generation -/

namespace TermMap

/-- No column that the map reads is null. -/
def Readable (m : TermMap) (columns : String → Option α) : Prop :=
  ∀ name ∈ m.columns, columns name ≠ none

instance (m : TermMap) (columns : String → Option α) : Decidable (m.Readable columns) :=
  inferInstanceAs (Decidable (∀ name ∈ m.columns, columns name ≠ none))

end TermMap

/-- A row with the row that its object is made from. -/
abbrev RowPair (α : Type) := (String → Option α) × (String → Option α)

namespace RowPair

/-- Every row with itself. -/
def same (rows : Multiset (String → Option α)) : Multiset (RowPair α) :=
  rows.map fun row => (row, row)

/-- The columns of the join conditions are equal, and not null. -/
def Joined (joins : List JoinCondition) (r : RowPair α) : Prop :=
  ∀ j ∈ joins, r.1 j.child ≠ none ∧ r.1 j.child = r.2 j.parent

instance [DecidableEq α] (joins : List JoinCondition) :
    DecidablePred (Joined (α := α) joins) := fun r =>
  inferInstanceAs (Decidable (∀ j ∈ joins, r.1 j.child ≠ none ∧ r.1 j.child = r.2 j.parent))

variable [DecidableEq α]

/-- The rows of two tables that meet the join conditions. -/
def joined (db : Database α) (child parent : LogicalTable) (joins : List JoinCondition) :
    Multiset (RowPair α) :=
  (db child.source ×ˢ db parent.source).filter (Joined joins)

/-- The rows of a table with their parent rows. Without join conditions a row is its own parent. -/
def related (db : Database α) (child parent : LogicalTable) : List JoinCondition →
    Multiset (RowPair α)
  | [] => same (db child.source)
  | j :: joins => joined db child parent (j :: joins)

end RowPair

namespace TriplesMap

/-- The triples that pairs of rows make, with the object made from the second row. -/
def triplesOf (I : Interpretation α) (map : TriplesMap) (predicate object : TermMap)
    (table : LogicalTable) (pairs : Multiset (RowPair α)) : Multiset RdfTriple :=
  (pairs.filter fun r =>
    map.subject.Readable r.1 ∧ predicate.Readable r.1 ∧ object.Readable r.2).map fun r =>
      ⟨map.subject.rowTerm I map.table r.1, predicate.rowTerm I map.table r.1,
        object.rowTerm I table r.2⟩

end TriplesMap

namespace Mapping

variable [DecidableEq α]

/-- The triples of one predicate and object of a triples map. -/
def objectTriples (I : Interpretation α) (db : Database α) (m : Mapping) (map : TriplesMap)
    (predicate : TermMap) : ObjectMap → Multiset RdfTriple
  | .term object => map.triplesOf I predicate object map.table (RowPair.same (db map.table.source))
  | .reference id joins =>
    match m.triplesMap? id with
    | none => 0
    | some parent => map.triplesOf I predicate parent.subject parent.table
        (RowPair.related db map.table parent.table joins)

/-- All triples that the mapping generates. -/
def triples (I : Interpretation α) (db : Database α) (m : Mapping) : Multiset RdfTriple :=
  (m.triplesMaps : Multiset TriplesMap).bind fun map =>
    (map.predicateObjectMaps : Multiset PredicateObjectMap).bind fun pom =>
      (pom.predicates : Multiset TermMap).bind fun predicate =>
        (pom.objects : Multiset ObjectMap).bind (m.objectTriples I db map predicate)

end Mapping

/-! ### Solutions of candidates -/

namespace Candidate

variable {I : Interpretation α} {db : Database α} {c : Candidate} {rows : RowChoice α}
  {b : Solution}

/-- The triple made from chosen rows. -/
def triple (I : Interpretation α) (c : Candidate) (rows : RowChoice α) : RdfTriple :=
  ⟨c.rowTerm I rows .subject, c.rowTerm I rows .predicate, c.rowTerm I rows .object⟩

/-- The rows make a triple, whether it matches or not. -/
def Reads (c : Candidate) (rows : RowChoice α) : Prop :=
  (∀ column ∈ c.columns, rows column.1 column.2 ≠ none) ∧
    ∀ pair ∈ c.joins, rows pair.1.1 pair.1.2 = rows pair.2.1 pair.2.2

theorem solution_eq_withFirsts : c.solution I rows =
    Solution.empty.withFirsts (Position.all.map fun p => (c.queryTerm p, c.rowTerm I rows p)) := by
  funext name
  rw [solution, Solution.withFirsts, List.find?_map, Option.map_map]
  rfl

/-- Rows are admitted if they make a triple that matches, with the solution of the match. -/
theorem admits_iff_match? : c.Admits I rows ∧ b = c.solution I rows ↔
    c.Reads rows ∧ c.pattern.match? (c.triple I rows) = some b := by
  have hmatch : c.pattern.match? (c.triple I rows) = some b ↔
      b = c.solution I rows ∧ ∀ p, b.Stands (c.queryTerm p, c.rowTerm I rows p) := by
    have hpositions : [(c.pattern.subject, (c.triple I rows).subject),
        (c.pattern.predicate, (c.triple I rows).predicate),
        (c.pattern.object, (c.triple I rows).object)] =
      Position.all.map fun p => (c.queryTerm p, c.rowTerm I rows p) := rfl
    rw [TriplePattern.match?, hpositions, Solution.extendAll?_eq_some, ← solution_eq_withFirsts,
      List.forall_mem_map]
    exact and_congr_right fun _ => ⟨fun h p => h p (mem_all p), fun h p _ => h p⟩
  rw [hmatch]
  constructor
  · rintro ⟨h, rfl⟩
    refine ⟨⟨h.columns, h.joins⟩, rfl, fun p => ⟨fun name hname => h.solution_eq hname, ?_⟩⟩
    exact fun x hx => (h.constants p x hx).symm
  · rintro ⟨⟨hcolumns, hjoins⟩, rfl, hstands⟩
    refine ⟨⟨hcolumns, hjoins, fun p x hx => ((hstands p).2 x hx).symm, ?_⟩, rfl⟩
    intro p q name hp hq
    exact Option.some_inj.mp (((hstands p).1 name hp).symm.trans ((hstands q).1 name hq))

open Classical in
/-- The solutions of a candidate are those with which its triples match. -/
theorem solutions_eq_filterMap : c.solutions I db =
    (((RowChoice.all db c.rows).filter c.Reads).map (c.triple I)).filterMap c.pattern.match? := by
  rw [solutions, Multiset.map_filter_eq_filterMap, Multiset.filterMap_map,
    Multiset.filterMap_filter]
  refine congrArg (fun f => Multiset.filterMap f _) (funext fun rows => Option.ext fun b => ?_)
  rw [Option.ite_none_right_eq_some, Option.ite_none_right_eq_some, Option.some_inj,
    eq_comm (b := b)]
  exact admits_iff_match?

/-- A pair of rows at two row numbers, which may be one. -/
def pairChoice (n k : Nat) (r : RowPair α) : RowChoice α :=
  Function.update (Function.update (fun _ _ => none) k r.2) n r.1

theorem all_same (n : Nat) (table : LogicalTable) :
    RowChoice.all db [(n, table)] = (RowPair.same (db table.source)).map (pairChoice n n) := by
  rw [RowPair.same, Multiset.map_map]
  simp only [RowChoice.all, Multiset.map_singleton, Multiset.bind_singleton]
  refine Multiset.map_congr rfl fun row _ => ?_
  rw [Function.comp_apply, pairChoice, Function.update_idem]

theorem all_pair (n k : Nat) (table table' : LogicalTable) :
    RowChoice.all db [(n, table), (k, table')] =
      (db table.source ×ˢ db table'.source).map (pairChoice n k) := by
  simp only [RowChoice.all, SProd.sprod, Multiset.product, Multiset.map_bind, Multiset.map_map,
    Multiset.map_singleton, Multiset.bind_singleton]
  rfl

section

variable {n k : Nat} {joins : List JoinCondition} {r : RowPair α}

theorem pairChoice_left : pairChoice n k r n = r.1 := Function.update_self ..

theorem pairChoice_right (h : n = k → r.1 = r.2) : pairChoice n k r k = r.2 := by
  by_cases hn : n = k
  · subst hn
    rw [pairChoice_left, h rfl]
  · rw [pairChoice, Function.update_of_ne (Ne.symm hn), Function.update_self]

/-- What has to be readable for the terms of a triple, position by position. -/
theorem forall_source_columns (hrow : (c.source .object).2.1 = k) (h : c.row = k → r.1 = r.2) :
    (∀ p, ∀ name ∈ (c.source p).1.columns, pairChoice c.row k r (c.source p).2.1 name ≠ none) ↔
      c.map.subject.Readable r.1 ∧ c.predicate.Readable r.1 ∧
        (c.source .object).1.Readable r.2 := by
  constructor
  · intro hall
    have hsubject := hall .subject
    have hpredicate := hall .predicate
    have hobject := hall .object
    rw [hrow, pairChoice_right h] at hobject
    exact ⟨fun name hname => pairChoice_left (r := r) ▸ hsubject name hname,
      fun name hname => pairChoice_left (r := r) ▸ hpredicate name hname, hobject⟩
  · rintro ⟨hsubject, hpredicate, hobject⟩ p name hname
    cases p with
    | subject => exact pairChoice_left (r := r) ▸ hsubject name hname
    | predicate => exact pairChoice_left (r := r) ▸ hpredicate name hname
    | object =>
      rw [hrow, pairChoice_right h]
      exact hobject name hname

/-- A pair of rows makes a triple if it is readable and meets the join conditions. -/
theorem reads_pairChoice (hrow : (c.source .object).2.1 = k) (h : c.row = k → r.1 = r.2)
    (hjoins : c.joins = joins.map fun j => ((c.row, j.child), (k, j.parent))) :
    c.Reads (pairChoice c.row k r) ↔ r.Joined joins ∧ c.map.subject.Readable r.1 ∧
      c.predicate.Readable r.1 ∧ (c.source .object).1.Readable r.2 := by
  rw [← forall_source_columns hrow h]
  constructor
  · rintro ⟨hcolumns, hequal⟩
    refine ⟨fun j hj => ?_, fun p name hname => ?_⟩
    · have hpair : ((c.row, j.child), (k, j.parent)) ∈ c.joins := by
        rw [hjoins]
        exact List.mem_map_of_mem hj
      have hchild := hcolumns (c.row, j.child) (mem_columns.mpr (.inr ⟨_, hpair, .inl rfl⟩))
      have hsame := hequal _ hpair
      rw [pairChoice_left] at hchild
      rw [pairChoice_left, pairChoice_right h] at hsame
      exact ⟨hchild, hsame⟩
    · exact hcolumns (_, name) (mem_columns.mpr (.inl ⟨p, rfl, hname⟩))
  · rintro ⟨hjoined, hread⟩
    have hpairs : ∀ pair ∈ c.joins, pairChoice c.row k r pair.1.1 pair.1.2 ≠ none ∧
        pairChoice c.row k r pair.1.1 pair.1.2 = pairChoice c.row k r pair.2.1 pair.2.2 := by
      rw [hjoins, List.forall_mem_map]
      intro j hj
      rw [pairChoice_left, pairChoice_right h]
      exact hjoined j hj
    refine ⟨fun column hcolumn => ?_, fun pair hpair => (hpairs pair hpair).2⟩
    obtain ⟨p, hp, hname⟩ | ⟨pair, hpair, rfl | rfl⟩ := mem_columns.mp hcolumn
    · rw [hp]
      exact hread p _ hname
    · exact (hpairs pair hpair).1
    · exact (hpairs pair hpair).2 ▸ (hpairs pair hpair).1

theorem triple_pairChoice (hrow : (c.source .object).2.1 = k) (h : c.row = k → r.1 = r.2) :
    c.triple I (pairChoice c.row k r) = ⟨c.map.subject.rowTerm I c.map.table r.1,
      c.predicate.rowTerm I c.map.table r.1,
      (c.source .object).1.rowTerm I (c.source .object).2.2 r.2⟩ := by
  have hobject : pairChoice c.row k r (c.source .object).2.1 = r.2 := by
    rw [hrow, pairChoice_right h]
  simp only [triple, rowTerm, hobject]
  simp only [source, pairChoice_left]

variable [DecidableEq α] {pairs : Multiset (RowPair α)}

open Classical in
/-- A candidate that reads pairs of rows has the solutions of the triples of those that are
joined. -/
theorem solutions_of_pairs (db : Database α) (joins : List JoinCondition)
    (hrow : (c.source .object).2.1 = k)
    (hall : RowChoice.all db c.rows = pairs.map (pairChoice c.row k))
    (h : ∀ r ∈ pairs, c.row = k → r.1 = r.2)
    (hjoins : c.joins = joins.map fun j => ((c.row, j.child), (k, j.parent))) :
    c.solutions I db = (c.map.triplesOf I c.predicate (c.source .object).1 (c.source .object).2.2
      (pairs.filter (RowPair.Joined joins))).filterMap c.pattern.match? := by
  rw [solutions_eq_filterMap, hall, Multiset.filter_map, Multiset.map_map, TriplesMap.triplesOf,
    Multiset.filter_filter]
  have hreads : pairs.filter (c.Reads ∘ pairChoice c.row k) = pairs.filter fun r =>
      (c.map.subject.Readable r.1 ∧ c.predicate.Readable r.1 ∧ (c.source .object).1.Readable r.2) ∧
        RowPair.Joined joins r :=
    Multiset.filter_congr fun r hr => (reads_pairChoice hrow (h r hr) hjoins).trans and_comm
  rw [hreads]
  refine congrArg (Multiset.filterMap _) (Multiset.map_congr rfl fun r hr => ?_)
  exact triple_pairChoice hrow (h r (Multiset.mem_of_mem_filter hr))

end

end Candidate

/-! ### Rules -/

namespace Rule

variable [DecidableEq α]

/-- The pairs of rows that the candidates of a rule read. -/
def pairs (db : Database α) (rule : Rule) : Multiset (RowPair α) :=
  match rule.object with
  | .term _ => RowPair.same (db rule.map.table.source)
  | .parent parent joins =>
    if parent.id = rule.map.id ∧ joins = [] then RowPair.same (db rule.map.table.source)
    else RowPair.joined db rule.map.table parent.table joins

/-- The triples that the candidates of a rule make. -/
def triples (I : Interpretation α) (db : Database α) (rule : Rule) : Multiset RdfTriple :=
  match rule.object with
  | .term object => rule.map.triplesOf I rule.predicate object rule.map.table (rule.pairs db)
  | .parent parent _ =>
    rule.map.triplesOf I rule.predicate parent.subject parent.table (rule.pairs db)

end Rule

namespace Candidate

variable {I : Interpretation α} {db : Database α}

theorem eq_of_mem_same {rows : Multiset (String → Option α)} {r : RowPair α}
    (h : r ∈ RowPair.same rows) : r.1 = r.2 := by
  obtain ⟨row, -, rfl⟩ := Multiset.mem_map.mp h
  rfl

variable [DecidableEq α]

theorem filter_joined_nil (pairs : Multiset (RowPair α)) :
    pairs.filter (RowPair.Joined []) = pairs :=
  Multiset.filter_eq_self.mpr fun _ _ _ hj => absurd hj List.not_mem_nil

/-- The candidate of a rule has the solutions with which the triples of the rule match. -/
theorem solutions_ofRule (pattern : TriplePattern) (n : Nat) (rule : Rule) :
    (ofRule pattern n rule).1.solutions I db = (rule.triples I db).filterMap pattern.match? := by
  obtain ⟨map, predicate, object⟩ := rule
  cases object with
  | term object =>
    have h := solutions_of_pairs (I := I) (k := n)
      (c := ⟨pattern, map, n, predicate, .term object⟩) db [] rfl (all_same n map.table)
      (fun r hr _ => eq_of_mem_same hr) rfl
    rwa [filter_joined_nil] at h
  | parent parent joins =>
    unfold ofRule
    split
    · rename_i heq
      cases heq
    · rename_i heq
      cases heq
      split
      · rename_i hsame
        obtain rfl : joins = [] := hsame.2
        have h := solutions_of_pairs (I := I) (k := n)
          (c := ⟨pattern, map, n, predicate, .parent parent n []⟩) db [] rfl
          ((congrArg (RowChoice.all db) (if_pos rfl)).trans (all_same n map.table))
          (fun r hr _ => eq_of_mem_same hr) rfl
        have hpairs : Rule.pairs db ⟨map, predicate, .parent parent []⟩ =
            RowPair.same (db map.table.source) := if_pos hsame
        rwa [filter_joined_nil, ← hpairs] at h
      · rename_i hother
        have h := solutions_of_pairs (I := I) (k := n + 1)
          (c := ⟨pattern, map, n, predicate, .parent parent (n + 1) joins⟩) db joins rfl
          ((congrArg (RowChoice.all db) (if_neg (Nat.succ_ne_self n))).trans
            (all_pair n (n + 1) map.table parent.table))
          (fun r _ hn => absurd hn.symm (Nat.succ_ne_self n)) rfl
        have hpairs : Rule.pairs db ⟨map, predicate, .parent parent joins⟩ =
            RowPair.joined db map.table parent.table joins := if_neg hother
        rwa [← RowPair.joined, ← hpairs] at h

end Candidate

namespace BoundTree

variable {I : Interpretation α} {db : Database α}

theorem solutions_ofBranches (ts : List BoundTree) :
    (ofBranches ts).solutions I db = solutionsOfUnion I db ts := by
  match ts with
  | [] => rfl
  | [_] => exact (add_zero _).symm
  | _ :: _ :: _ => rfl

/-- A bound triple pattern has the solutions with which the triples of the rules match it. -/
theorem solutions_bind_triple_rules [DecidableEq α] (m : Mapping) (row : Nat) (p : TriplePattern) :
    (bind m row (.triple p)).1.solutions I db =
      ((m.rules : Multiset Rule).bind (Rule.triples I db)).filterMap p.match? := by
  have hrules : ∀ (rules : List Rule) (row : Nat),
      solutionsOfUnion I db ((Candidate.ofRules p row rules).1.map triple) =
        ((rules : Multiset Rule).bind (Rule.triples I db)).filterMap p.match? := by
    intro rules
    induction rules with
    | nil => exact fun row => rfl
    | cons rule rules ih =>
      intro row
      rw [← Multiset.cons_coe, Multiset.cons_bind, Multiset.filterMap_add,
        ← Candidate.solutions_ofRule p row rule]
      exact congrArg _ (ih _)
  rw [bind, solutions_ofBranches]
  exact hrules m.rules row

end BoundTree

/-! ### References of a loaded mapping -/

namespace Mapping

variable {m : Mapping}

/-- In a loaded mapping, a reference without join conditions is to a triples map over the same
source. -/
theorem source_eq_of_reference {ds : List TriplesMapDefinition} (h : ofDefinitions ds = .ok m)
    {map parent : TriplesMap} (hmap : map ∈ m.triplesMaps) {pom : PredicateObjectMap}
    (hpom : pom ∈ map.predicateObjectMaps) {id : Nat} (hid : .reference id [] ∈ pom.objects)
    (hparent : m.triplesMap? id = some parent) : parent.table.source = map.table.source := by
  have hfits := (wellFormed_of_load h).fits map hmap
  obtain ⟨table, htable, hsource, -⟩ := (hfits.predicateObjectMaps pom hpom).objects _ hid
  rw [tableOf?, hparent] at htable
  cases htable
  exact hsource rfl

/-! ### Generated triples and bound patterns -/

variable [DecidableEq α] {I : Interpretation α} {db : Database α}

theorem joined_nil {child parent : LogicalTable} (hsource : parent.source = child.source)
    (hcard : (db child.source).card ≤ 1) :
    RowPair.joined db child parent [] = RowPair.same (db child.source) := by
  rw [RowPair.joined, Candidate.filter_joined_nil, hsource, RowPair.same]
  rcases Nat.le_one_iff_eq_zero_or_eq_one.mp hcard with hzero | hone
  · rw [Multiset.card_eq_zero.mp hzero]
    rfl
  · obtain ⟨row, hrow⟩ := Multiset.card_eq_one.mp hone
    rw [hrow]
    rfl

/-- References without join conditions name their own triples map, or no two rows are there to be
mixed up. -/
def RefersToOwnRow (db : Database α) (m : Mapping) : Prop :=
  ∀ map ∈ m.triplesMaps, ∀ pom ∈ map.predicateObjectMaps, ∀ id, .reference id [] ∈ pom.objects →
    id = map.id ∨ (db map.table.source).card ≤ 1

/-- The rule of an object map makes the triples that the mapping generates for it. -/
theorem objectTriples_eq {ds : List TriplesMapDefinition} (hload : ofDefinitions ds = .ok m)
    (hown : m.RefersToOwnRow db) {map : TriplesMap} (hmap : map ∈ m.triplesMaps)
    {pom : PredicateObjectMap} (hpom : pom ∈ map.predicateObjectMaps) {object : ObjectMap}
    (hobject : object ∈ pom.objects) (predicate : TermMap) :
    m.objectTriples I db map predicate object =
      ((m.ruleObject? object).map fun o => Rule.triples I db ⟨map, predicate, o⟩).getD 0 := by
  cases object with
  | term object => rfl
  | reference id joins =>
    rw [objectTriples, ruleObject?]
    cases hparent : m.triplesMap? id with
    | none => rfl
    | some parent =>
      have hid : parent.id = id := numbered_of_load hload id parent hparent
      have hpairs : Rule.pairs db ⟨map, predicate, .parent parent joins⟩ =
          RowPair.related db map.table parent.table joins := by
        cases joins with
        | cons j joins => exact if_neg fun h => List.cons_ne_nil _ _ h.2
        | nil =>
          rw [RowPair.related, Rule.pairs]
          dsimp only
          split
          · rfl
          · rename_i hother
            obtain hsame | hcard := hown map hmap pom hpom id hobject
            · exact absurd ⟨hid.trans hsame, rfl⟩ hother
            · exact joined_nil (source_eq_of_reference hload hmap hpom hobject hparent) hcard
      simp only [Option.map_some, Option.getD_some, Rule.triples, hpairs]

theorem triples_eq_rules {ds : List TriplesMapDefinition} (hload : ofDefinitions ds = .ok m)
    (hown : m.RefersToOwnRow db) :
    m.triples I db = (m.rules : Multiset Rule).bind (Rule.triples I db) := by
  rw [triples, rules]
  simp only [← Multiset.coe_bind, Multiset.bind_assoc, ← Multiset.filterMap_coe,
    Multiset.bind_filterMap]
  refine Multiset.bind_congr fun map hmap => Multiset.bind_congr fun pom hpom =>
    Multiset.bind_congr fun predicate _ => Multiset.bind_congr fun object hobject => ?_
  rw [objectTriples_eq hload hown (Multiset.mem_coe.mp hmap) (Multiset.mem_coe.mp hpom)
    (Multiset.mem_coe.mp hobject)]
  cases m.ruleObject? object <;> rfl

end Mapping

namespace BoundTree

/-- A bound triple pattern has the solutions with which the generated triples match it, where
references without join conditions name their own triples map. -/
theorem solutions_bind_triple [DecidableEq α] {ds : List TriplesMapDefinition} {m : Mapping}
    (hload : Mapping.ofDefinitions ds = .ok m) (I : Interpretation α) {db : Database α}
    (hown : m.RefersToOwnRow db) (row : Nat) (p : TriplePattern) :
    (bind m row (.triple p)).1.solutions I db = (m.triples I db).filterMap p.match? := by
  rw [Mapping.triples_eq_rules hload hown]
  exact solutions_bind_triple_rules m row p

/-- Two people, one with a boss, who both know themselves. -/
theorem solutions_bind_triple_bosses :
    let people : LogicalTable :=
      ⟨.table "people", [⟨"id", .integer, false⟩, ⟨"boss", .integer, true⟩]⟩
    let map : TriplesMap := ⟨0, "people", people,
      ⟨.template "http://x/{id}" [.text "http://x/", .column "id"], .iri, none, none⟩,
      [⟨[.ofIri "http://x/boss"], [.reference 0 [⟨"boss", "id"⟩]]⟩,
        ⟨[.ofIri "http://x/knows"], [.reference 0 []]⟩]⟩
    let ds : List TriplesMapDefinition := [⟨"people", ⟨some "people", none, people.columns⟩,
      ⟨none, none, some "http://x/{id}", none, none, none⟩, [],
      [⟨["http://x/boss"], [], [], [.reference "people" [⟨"boss", "id"⟩]]⟩,
        ⟨["http://x/knows"], [], [], [.reference "people" []]⟩]⟩]
    let m : Mapping := ⟨[map]⟩
    let db : Database String := .ofRecords fun _ => [[("id", "1")], [("id", "2"), ("boss", "1")]]
    let p : TriplePattern := ⟨.var "s", .var "p", .var "o"⟩
    Mapping.ofDefinitions ds = .ok m ∧ m.RefersToOwnRow db ∧
      ((bind m 0 (.triple p)).1.solutions .literal db).map
          (fun a => ["s", "p", "o"].map fun name => (a name).map (·.text)) =
        {[some "http://x/2", some "http://x/boss", some "http://x/1"],
          [some "http://x/1", some "http://x/knows", some "http://x/1"],
          [some "http://x/2", some "http://x/knows", some "http://x/2"]} := by
  intro people map ds m db p
  have hload : Mapping.ofDefinitions ds = .ok m := Result.eq_ok_of_toOption (by decide +kernel)
  have hown : m.RefersToOwnRow db := by
    intro map' hmap pom hpom id hid
    obtain rfl := List.mem_singleton.mp hmap
    simp only [map, List.mem_cons, List.not_mem_nil, or_false] at hpom
    obtain rfl | rfl := hpom
    · cases List.mem_singleton.mp hid
    · cases List.mem_singleton.mp hid
      exact .inl rfl
  refine ⟨hload, hown, ?_⟩
  rw [solutions_bind_triple hload .literal hown 0 p]
  decide +kernel

/-- A reference without join conditions to another triples map over the same table pairs every row
with every row: of four solutions, two mix the rows. -/
theorem solutions_bind_triple_mixes_rows :
    let table : LogicalTable := ⟨.table "t", [⟨"id", .integer, false⟩]⟩
    let m : Mapping := ⟨[
      ⟨0, "a", table,
        ⟨.template "http://x/a/{id}" [.text "http://x/a/", .column "id"], .iri, none, none⟩,
        [⟨[.ofIri "http://x/is"], [.reference 1 []]⟩]⟩,
      ⟨1, "b", table,
        ⟨.template "http://x/b/{id}" [.text "http://x/b/", .column "id"], .iri, none, none⟩,
        []⟩]⟩
    let d (name template : String) (poms : List PredicateObjectMapDefinition) :
      TriplesMapDefinition :=
      ⟨name, ⟨some "t", none, table.columns⟩, ⟨none, none, some template, none, none, none⟩, [],
        poms⟩
    let ds := [d "a" "http://x/a/{id}" [⟨["http://x/is"], [], [], [.reference "b" []]⟩],
      d "b" "http://x/b/{id}" []]
    let db : Database String := .ofRecords fun _ => [[("id", "1")], [("id", "2")]]
    let p : TriplePattern := ⟨.var "s", .iri "http://x/is", .var "o"⟩
    let terms (a : Solution) := (a "s", a "o")
    Mapping.ofDefinitions ds = .ok m ∧
      ((m.triples .literal db).filterMap p.match?).map terms =
        {(some ⟨.iri, "http://x/a/1"⟩, some ⟨.iri, "http://x/b/1"⟩),
          (some ⟨.iri, "http://x/a/2"⟩, some ⟨.iri, "http://x/b/2"⟩)} ∧
      ((bind m 0 (.triple p)).1.solutions .literal db).map terms =
        {(some ⟨.iri, "http://x/a/1"⟩, some ⟨.iri, "http://x/b/1"⟩),
          (some ⟨.iri, "http://x/a/1"⟩, some ⟨.iri, "http://x/b/2"⟩),
          (some ⟨.iri, "http://x/a/2"⟩, some ⟨.iri, "http://x/b/1"⟩),
          (some ⟨.iri, "http://x/a/2"⟩, some ⟨.iri, "http://x/b/2"⟩)} := by
  intro table m d ds db p terms
  refine ⟨Result.eq_ok_of_toOption (by decide +kernel), by decide +kernel, ?_⟩
  rw [solutions_bind_triple_rules]
  decide +kernel

end BoundTree

end VirtualGraph
