import VirtualGraph.Document.Json
import VirtualGraph.Document.Table
import VirtualGraph.Mapping.Definition
import VirtualGraph.Text.Blank

/-!
# Loading a mapping

Checks the definitions of a mapping and builds it. The first fault in the order of the document is
reported, except that names come before tables and tables before everything else.
-/

namespace VirtualGraph

/-- Builds every element of a list, or fails with the first fault. -/
def loadAll {α β : Type} (load : α → Result β) : List α → Result (List β)
  | [] => .ok []
  | a :: rest => do
    let b ← load a
    let bs ← loadAll load rest
    .ok (b :: bs)

/-- A fault in the triples map of a given name. -/
def inTriplesMap (owner : String) (problem : TriplesMapProblem) : Fault :=
  .mapping (.triplesMap owner problem)

namespace LogicalTableDefinition

/-- A query is taken without the blanks around it and the semicolons at its end. -/
def load (owner : String) (d : LogicalTableDefinition) : Result LogicalTable :=
  match d.tableName, d.sqlQuery with
  | some name, none => .ok ⟨.table name, d.columns⟩
  | none, some query =>
    let sql := Text.dropEndWhile (· == ';') (Text.trim query).toList
    .ok ⟨.query (String.ofList sql), d.columns⟩
  | _, _ => .error (inTriplesMap owner .tableSource)

end LogicalTableDefinition

namespace TermMapDefinition

/-- The one way in which the map makes its text. -/
def kind (owner : String) (d : TermMapDefinition) : Result TermMapKind :=
  match d.constant, d.column, d.template with
  | some value, none, none => .ok (.constant value)
  | none, some name, none => .ok (.column name)
  | none, none, some text =>
    match Template.parse text with
    | .ok parts => .ok (.template text parts)
    | .error fault => .error (.template fault)
  | _, _, _ => .error (inTriplesMap owner .termMapKind)

/-- The declared term type. Without one, an object with a datatype, a language or a column is a
literal and every other term is an IRI. -/
def resolvedType (d : TermMapDefinition) (position : Position) : TermType :=
  match d.termType, position with
  | some type, _ => type
  | none, .object =>
    if d.column.isSome || d.datatype.isSome || d.language.isSome then .literal else .iri
  | none, _ => .iri

/-- Whether terms of a type may stand at a position. -/
def isAllowed : Position → TermType → Bool
  | .subject, .literal => false
  | .predicate, .literal => false
  | .predicate, .blankNode => false
  | _, _ => true

def load (owner : String) (position : Position) (table : LogicalTable) (d : TermMapDefinition) :
    Result TermMap := do
  let kind ← d.kind owner
  let type := d.resolvedType position
  let map : TermMap := ⟨kind, type, d.datatype, d.language⟩
  if d.datatype.isSome && d.language.isSome then
    .error (inTriplesMap owner .datatypeAndLanguage)
  else if !isAllowed position type then
    .error (inTriplesMap owner (.termType position type))
  else if type ≠ .literal ∧ (d.datatype.isSome ∨ d.language.isSome) then
    .error (inTriplesMap owner .notLiteral)
  else
    match map.columns.find? (!table.hasColumn ·) with
    | some column => .error (inTriplesMap owner (.unknownColumn column table.display))
    | none => .ok map

end TermMapDefinition

/-- The names and logical tables of all triples maps, in order. -/
abbrev TableIndex := List (String × LogicalTable)

/-- The first unknown column of a list of join conditions. -/
def joinProblem? (child parent : LogicalTable) : List JoinCondition → Option TriplesMapProblem
  | [] => none
  | j :: rest =>
    if !child.hasColumn j.child then some (.unknownChildColumn j.child)
    else if !parent.hasColumn j.parent then some (.unknownParentColumn j.parent)
    else joinProblem? child parent rest

namespace ObjectMapDefinition

/-- A reference without join conditions takes parent and child from the same row, so both need the
same source. -/
def loadReference (owner : String) (index : TableIndex) (table : LogicalTable) (parent : String)
    (joins : List JoinCondition) : Result ObjectMap :=
  match index.findIdx? (·.1 = parent), index.lookup parent with
  | some id, some parentTable =>
    if joins.isEmpty && parentTable.source ≠ table.source then
      .error (inTriplesMap owner (.otherTable parent))
    else
      match joinProblem? table parentTable joins with
      | some problem => .error (inTriplesMap owner problem)
      | none => .ok (.reference id joins)
  | _, _ => .error (inTriplesMap owner (.unknownParent parent))

def load (owner : String) (index : TableIndex) (table : LogicalTable) :
    ObjectMapDefinition → Result ObjectMap
  | term map => (map.load owner .object table).map .term
  | reference parent joins => loadReference owner index table parent joins

end ObjectMapDefinition

namespace PredicateObjectMapDefinition

def load (owner : String) (index : TableIndex) (table : LogicalTable)
    (d : PredicateObjectMapDefinition) : Result PredicateObjectMap := do
  let predicateMaps ← loadAll (·.load owner .predicate table) d.predicateMaps
  let objectMaps ← loadAll (·.load owner index table) d.objectMaps
  let predicates := d.predicates.map .ofIri ++ predicateMaps
  let objects := d.objects.map (.term ∘ .ofIri) ++ objectMaps
  if predicates.isEmpty || objects.isEmpty then
    .error (inTriplesMap owner .emptyPredicateObjectMap)
  else .ok ⟨predicates, objects⟩

end PredicateObjectMapDefinition

/-- The predicate-object map of the classes of a subject, if it has any. -/
def classMaps : List String → List PredicateObjectMap
  | [] => []
  | classes => [⟨[.ofIri rdfType], classes.map (.term ∘ .ofIri)⟩]

namespace TriplesMapDefinition

def load (index : TableIndex) (id : Nat) (table : LogicalTable) (d : TriplesMapDefinition) :
    Result TriplesMap := do
  let subject ← d.subject.load d.name .subject table
  let maps ← loadAll (·.load d.name index table) d.predicateObjectMaps
  .ok ⟨id, d.name, table, subject, classMaps d.classes ++ maps⟩

end TriplesMapDefinition

/-- The first name that has appeared before. -/
def duplicate? (seen : List String) : List String → Option String
  | [] => none
  | name :: rest => if seen.contains name then some name else duplicate? (name :: seen) rest

namespace Mapping

/-- Builds the triples maps, numbered from `id`. -/
def loadTriplesMaps (index : TableIndex) : Nat → List (LogicalTable × TriplesMapDefinition) →
    Result (List TriplesMap)
  | _, [] => .ok []
  | id, (table, d) :: rest => do
    let map ← d.load index id table
    let maps ← loadTriplesMaps index (id + 1) rest
    .ok (map :: maps)

/-- Checks the definitions and builds the mapping. -/
def ofDefinitions (ds : List TriplesMapDefinition) : Result Mapping :=
  match duplicate? [] (ds.map (·.name)) with
  | some name => .error (.mapping (.duplicate name))
  | none => do
    let tables ← loadAll (fun d => d.table.load d.name) ds
    let index := (ds.map (·.name)).zip tables
    let maps ← loadTriplesMaps index 0 (tables.zip ds)
    .ok ⟨maps⟩

/-- How strictly the documents of a format are read. -/
def strictness : DocumentFormat → Strictness
  | .toml => .lenient
  | .json => .strict

/-- Reads the mapping that a document describes, if the document could be read at all. -/
def ofDocument (format : DocumentFormat) (d : Option Document) : Result Mapping :=
  match d.bind (Document.mapping? (strictness format)) with
  | some ds => ofDefinitions ds
  | none => .error (.mapping (.invalid format))

/-- Reads a mapping in a given format. -/
def parse (format : DocumentFormat) (text : String) : Result Mapping :=
  match format with
  | .toml => ofDocument .toml (Toml.parse? text)
  | .json => ofDocument .json (Json.parse? text)

end Mapping

end VirtualGraph
