import VirtualGraph.Document.Basic
import VirtualGraph.Mapping.Basic

/-!
# Mapping definitions

The records of a mapping document, as they are written and before they are checked. Only the record
of a term map refuses fields that it does not know. An object map is read in more than one way, so
all of it has to be readable, and it is read strictly whatever the format.
-/

namespace VirtualGraph

structure LogicalTableDefinition where
  tableName : Option String
  sqlQuery : Option String
  columns : List Column

structure TermMapDefinition where
  constant : Option String
  column : Option String
  template : Option String
  termType : Option TermType
  datatype : Option String
  language : Option String

/-- An object map refers to a parent whenever it can be read so, whatever else it holds. -/
inductive ObjectMapDefinition where
  | reference (parent : String) (joins : List JoinCondition)
  | term (map : TermMapDefinition)

structure PredicateObjectMapDefinition where
  predicates : List String
  predicateMaps : List TermMapDefinition
  objects : List String
  objectMaps : List ObjectMapDefinition

structure TriplesMapDefinition where
  name : String
  table : LogicalTableDefinition
  subject : TermMapDefinition
  classes : List String
  predicateObjectMaps : List PredicateObjectMapDefinition

/-- Reads the name of a term type. -/
def TermType.ofKey? : String → Option TermType
  | "iri" => some .iri
  | "blank_node" => some .blankNode
  | "literal" => some .literal
  | _ => none

namespace Document

def texts? : Document → Option (List String) := list? text?

def column? (s : Strictness) (d : Document) : Option Column := do
  let f ← fields? s ["name", "sql_type", "nullable"] false d
  let name ← f.required "name" text?
  let type ← f.withDefault "sql_type" .string (choice? s SqlType.ofName?)
  let nullable ← f.withDefault "nullable" true bool?
  some ⟨name, type, nullable⟩

def logicalTable? (s : Strictness) (d : Document) : Option LogicalTableDefinition := do
  let f ← fields? s ["table_name", "sql_query", "columns"] false d
  let tableName ← f.optional "table_name" text?
  let sqlQuery ← f.optional "sql_query" text?
  let columns ← f.withDefault "columns" [] (list? (column? s))
  some ⟨tableName, sqlQuery, columns⟩

def termMap? (s : Strictness) (d : Document) : Option TermMapDefinition := do
  let f ← fields? s ["constant", "column", "template", "term_type", "datatype", "language"] true d
  let constant ← f.optional "constant" text?
  let column ← f.optional "column" text?
  let template ← f.optional "template" text?
  let termType ← f.optional "term_type" (choice? s TermType.ofKey?)
  let datatype ← f.optional "datatype" text?
  let language ← f.optional "language" text?
  some ⟨constant, column, template, termType, datatype, language⟩

def joinCondition? (d : Document) : Option JoinCondition := do
  let f ← fields? .strict ["child", "parent"] false d
  let child ← f.required "child" text?
  let parent ← f.required "parent" text?
  some ⟨child, parent⟩

def reference? (d : Document) : Option ObjectMapDefinition := do
  let f ← fields? .strict ["parent_triples_map", "join_conditions"] false d
  let parent ← f.required "parent_triples_map" text?
  let joins ← f.withDefault "join_conditions" [] (list? joinCondition?)
  some (.reference parent joins)

def objectMap? (d : Document) : Option ObjectMapDefinition :=
  if d.isReadable then
    match reference? d with
    | some m => some m
    | none => (termMap? .strict d).map .term
  else none

def predicateObjectMap? (s : Strictness) (d : Document) : Option PredicateObjectMapDefinition := do
  let f ← fields? s ["predicates", "predicate_maps", "objects", "object_maps"] false d
  let predicates ← f.withDefault "predicates" [] texts?
  let predicateMaps ← f.withDefault "predicate_maps" [] (list? (termMap? s))
  let objects ← f.withDefault "objects" [] texts?
  let objectMaps ← f.withDefault "object_maps" [] (list? objectMap?)
  some ⟨predicates, predicateMaps, objects, objectMaps⟩

def triplesMap? (s : Strictness) (d : Document) : Option TriplesMapDefinition := do
  let f ← fields? s
    ["name", "logical_table", "subject_map", "classes", "predicate_object_maps"] false d
  let name ← f.required "name" text?
  let table ← f.required "logical_table" (logicalTable? s)
  let subject ← f.required "subject_map" (termMap? s)
  let classes ← f.withDefault "classes" [] texts?
  let maps ← f.withDefault "predicate_object_maps" [] (list? (predicateObjectMap? s))
  some ⟨name, table, subject, classes, maps⟩

/-- The triples maps that a document defines. -/
def mapping? (s : Strictness) (d : Document) : Option (List TriplesMapDefinition) := do
  let f ← fields? s ["triples_maps"] false d
  f.withDefault "triples_maps" [] (list? (triplesMap? s))

end Document

end VirtualGraph
