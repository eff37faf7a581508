import VirtualGraph.Algebra.Term
import VirtualGraph.Bound.Term

/-!
# Candidates

A candidate is one way in which the mapping may answer a triple pattern: a triples map with one of
its predicates and objects, and the numbers of the rows that it reads. No two candidates share a row
number, so every candidate reads its rows independently.
-/

namespace VirtualGraph

/-- The object of a rule: made from the row itself, or the subject of a parent row. -/
inductive RuleObject where
  | term (map : TermMap)
  | parent (map : TriplesMap) (joins : List JoinCondition)

/-- One way in which the mapping makes triples. -/
structure Rule where
  map : TriplesMap
  predicate : TermMap
  object : RuleObject

namespace Mapping

/-- The object of a rule, unless it refers to a triples map that is not there. -/
def ruleObject? (m : Mapping) : ObjectMap → Option RuleObject
  | .term map => some (.term map)
  | .reference parent joins => (m.triplesMap? parent).map (.parent · joins)

/-- All rules, in the order of the mapping. -/
def rules (m : Mapping) : List Rule :=
  m.triplesMaps.flatMap fun map =>
    map.predicateObjectMaps.flatMap fun pom =>
      pom.predicates.flatMap fun predicate =>
        pom.objects.filterMap fun object =>
          (m.ruleObject? object).map (⟨map, predicate, ·⟩)

end Mapping

/-- The object of a candidate; a parent comes with the number of its row. -/
inductive CandidateObject where
  | term (map : TermMap)
  | parent (map : TriplesMap) (row : Nat) (joins : List JoinCondition)

/-- A triple pattern with a rule that may answer it, over numbered rows. Fewer than 2^32 rows are
numbered. -/
structure Candidate where
  pattern : TriplePattern
  map : TriplesMap
  row : Nat
  predicate : TermMap
  object : CandidateObject

namespace Candidate

/-- The candidate of a rule whose first row has a given number, and the next free number. A parent
is the row itself when it is the same triples map and no join condition says otherwise. -/
def ofRule (pattern : TriplePattern) (row : Nat) (rule : Rule) : Candidate × Nat :=
  match rule.object with
  | .term map => (⟨pattern, rule.map, row, rule.predicate, .term map⟩, row + 1)
  | .parent parent joins =>
    if parent.id = rule.map.id ∧ joins = [] then
      (⟨pattern, rule.map, row, rule.predicate, .parent parent row joins⟩, row + 1)
    else
      (⟨pattern, rule.map, row, rule.predicate, .parent parent (row + 1) joins⟩, row + 2)

/-- The candidates of a list of rules, and the next free row number. -/
def ofRules (pattern : TriplePattern) : Nat → List Rule → List Candidate × Nat
  | row, [] => ([], row)
  | row, rule :: rules =>
    let (c, row') := ofRule pattern row rule
    let (cs, next) := ofRules pattern row' rules
    (c :: cs, next)

/-- The term of the pattern at a position. -/
def queryTerm (c : Candidate) : Position → Term
  | .subject => c.pattern.subject
  | .predicate => c.pattern.predicate
  | .object => c.pattern.object

/-- What makes the term at a position: its map, and the row and table that it reads. -/
def source (c : Candidate) : Position → TermMap × Nat × LogicalTable
  | .subject => (c.map.subject, c.row, c.map.table)
  | .predicate => (c.predicate, c.row, c.map.table)
  | .object =>
    match c.object with
    | .term map => (map, c.row, c.map.table)
    | .parent map row _ => (map.subject, row, map.table)

/-- The terms that a position can take. -/
def term (c : Candidate) (p : Position) : BoundTerm :=
  let (map, row, table) := c.source p
  ⟨map.toPattern row table, .ofTermMap map table⟩

/-- The variables of the pattern with the terms that they are bound to, by position. -/
def bindings (c : Candidate) : List (String × BoundTerm) :=
  Position.all.filterMap fun p => (c.queryTerm p).varName?.map (·, c.term p)

/-- The rows that are read with their tables, the candidate's own first. -/
def rows (c : Candidate) : List (Nat × LogicalTable) :=
  match c.object with
  | .parent map row _ =>
    if row = c.row then [(c.row, c.map.table)] else [(c.row, c.map.table), (row, map.table)]
  | .term _ => [(c.row, c.map.table)]

/-- The join conditions with the row numbers of their two sides. -/
def joins (c : Candidate) : List ((Nat × String) × (Nat × String)) :=
  match c.object with
  | .parent _ row joins => joins.map fun j => ((c.row, j.child), (row, j.parent))
  | .term _ => []

/-- The columns that are read, each once. A row makes a triple only if none of them is null. -/
def columns (c : Candidate) : List (Nat × String) :=
  let read := Position.all.flatMap fun p =>
    let (map, row, _) := c.source p
    map.columns.map (row, ·)
  let joined := c.joins.flatMap fun (child, parent) => [child, parent]
  (read ++ joined).foldl (fun seen c => if seen.contains c then seen else seen ++ [c]) []

/-- Whether the candidate can make a triple that matches its pattern. -/
def canMatch (c : Candidate) : Bool :=
  (Position.all.all fun p => BoundTerm.canMatch (c.queryTerm p) (c.term p))
    && BoundTerm.agree c.bindings

end Candidate

end VirtualGraph
