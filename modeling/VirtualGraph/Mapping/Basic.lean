import VirtualGraph.Fault
import VirtualGraph.Pattern.Basic

/-!
# Mappings

A mapping says which triples the rows of a database stand for. Each triples map reads one logical
table; its subject map and the maps of its predicates and objects make one term per row.
-/

namespace VirtualGraph

/-- The predicate of class membership. -/
def rdfType : String := "http://www.w3.org/1999/02/22-rdf-syntax-ns#type"

/-- A declared column. -/
structure Column where
  name : String
  type : SqlType
  nullable : Bool
  deriving DecidableEq

/-- Where rows come from. -/
inductive TableSource where
  | table (name : String)
  | query (sql : String)
  deriving DecidableEq

/-- A table or query with its declared columns. Without any declaration every column name is
accepted, as a nullable string. -/
structure LogicalTable where
  source : TableSource
  columns : List Column
  deriving DecidableEq

/-- How a term map makes its text. -/
inductive TermMapKind where
  | constant (value : String)
  | column (name : String)
  | template (text : String) (parts : List TemplatePart)
  deriving DecidableEq

/-- Makes one term from a row. -/
structure TermMap where
  kind : TermMapKind
  termType : TermType
  datatype : Option String
  language : Option String
  deriving DecidableEq

/-- Two columns that a row and its parent row agree on. -/
structure JoinCondition where
  child : String
  parent : String
  deriving DecidableEq

/-- Makes the object of a triple: from the row itself, or as the subject of a parent row. The parent
is the number of a triples map. -/
inductive ObjectMap where
  | term (map : TermMap)
  | reference (parent : Nat) (joins : List JoinCondition)
  deriving DecidableEq

/-- Every predicate goes with every object. -/
structure PredicateObjectMap where
  predicates : List TermMap
  objects : List ObjectMap
  deriving DecidableEq

/-- The triples that one logical table stands for. Triples maps are numbered from zero, and fewer
than 2^32 of them are taken. -/
structure TriplesMap where
  id : Nat
  name : String
  table : LogicalTable
  subject : TermMap
  predicateObjectMaps : List PredicateObjectMap
  deriving DecidableEq

/-- All triples maps, each at the place of its number. -/
structure Mapping where
  triplesMaps : List TriplesMap
  deriving DecidableEq

namespace TableSource

def display : TableSource → String
  | table name => name
  | query sql => "(" ++ sql ++ ")"

end TableSource

namespace LogicalTable

def column? (t : LogicalTable) (name : String) : Option Column :=
  t.columns.find? (·.name = name)

def columnType (t : LogicalTable) (name : String) : SqlType :=
  ((t.column? name).map (·.type)).getD .string

def isNullable (t : LogicalTable) (name : String) : Bool :=
  ((t.column? name).map (·.nullable)).getD true

def hasColumn (t : LogicalTable) (name : String) : Bool :=
  t.columns.isEmpty || (t.column? name).isSome

def display (t : LogicalTable) : String := t.source.display

end LogicalTable

namespace TermMap

/-- A term map that always makes one IRI. -/
def ofIri (value : String) : TermMap := ⟨.constant value, .iri, none, none⟩

/-- The texts that the map makes from a numbered row. Only the values in the template of an IRI are
percent-encoded: an IRI from a column is taken as it is. -/
def toPattern (m : TermMap) (row : Nat) (table : LogicalTable) : Pattern :=
  let iri := m.termType == .iri
  match m.kind with
  | .constant value => .ofText value iri
  | .column name => .ofSlot ⟨row, name, table.columnType name⟩ false
  | .template _ parts => .ofTemplate parts row iri table.columnType

/-- The columns that the map reads, in order of appearance. -/
def columns (m : TermMap) : List String :=
  match m.kind with
  | .constant _ => []
  | .column name => [name]
  | .template _ parts => Template.columns parts

def constant? (m : TermMap) : Option String :=
  match m.kind with
  | .constant value => some value
  | _ => none

/-- The datatype of the literals that the map makes: the declared one, or the natural one of a typed
column. Plain literals, literals with a language and other terms have none. -/
def effectiveDatatype? (m : TermMap) (table : LogicalTable) : Option String :=
  if m.termType ≠ .literal ∨ m.language.isSome then none
  else
    match m.datatype, m.kind with
    | some datatype, _ => some datatype
    | none, .column name => (table.columnType name).naturalXsd?
    | none, _ => none

/-- The type of the value that the text is made from. -/
def valueType (m : TermMap) (table : LogicalTable) : SqlType :=
  match m.kind with
  | .column name => table.columnType name
  | _ => .string

def display (m : TermMap) : String :=
  let kind :=
    match m.kind with
    | .constant value => "constant(" ++ value ++ ")"
    | .column name => "column(" ++ name ++ ")"
    | .template text _ => "template(" ++ text ++ ")"
  let datatype := (m.datatype.map fun d => "^^<" ++ d ++ ">").getD ""
  let language := (m.language.map fun l => "@" ++ l).getD ""
  kind ++ " " ++ m.termType.name ++ datatype ++ language

end TermMap

namespace Mapping

def triplesMap? (m : Mapping) (id : Nat) : Option TriplesMap := m.triplesMaps[id]?

end Mapping

end VirtualGraph
