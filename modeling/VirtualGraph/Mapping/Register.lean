import VirtualGraph.Mapping.Basic

/-!
# The register of a mapping

The term maps of a mapping in one list, each under its number. A term map is registered when it is
met: the subject of a triples map first, then the predicates and the objects of each of its
predicate-object maps. In the register, triples maps refer to term maps by number.
-/

namespace VirtualGraph

/-- A term map and its number. -/
structure TermEntry where
  id : Nat
  map : TermMap
  deriving DecidableEq

/-- An object map by the numbers of the maps that it uses. -/
inductive ObjectEntry where
  | term (id : Nat)
  | reference (parent : Nat) (joins : List JoinCondition)
  deriving DecidableEq

/-- A predicate-object map by numbers. -/
structure PredicateObjectEntry where
  predicates : List Nat
  objects : List ObjectEntry
  deriving DecidableEq

/-- A triples map by numbers. -/
structure TriplesEntry where
  id : Nat
  name : String
  table : LogicalTable
  subject : Nat
  predicateObjectMaps : List PredicateObjectEntry
  deriving DecidableEq

/-- All triples maps and all term maps, each at the place of its number. -/
structure Register where
  triplesMaps : List TriplesEntry
  termMaps : List TermEntry
  deriving DecidableEq

/-- Works on the term maps registered so far. -/
abbrev Registering := StateM (List TermEntry)

/-- Registers a term map under the next number. -/
def TermMap.register (map : TermMap) : Registering Nat := do
  let entries ← get
  set (entries ++ [⟨entries.length, map⟩])
  return entries.length

/-- A reference brings no term map of its own. -/
def ObjectMap.register : ObjectMap → Registering ObjectEntry
  | term map => return .term (← map.register)
  | reference parent joins => return .reference parent joins

def PredicateObjectMap.register (m : PredicateObjectMap) : Registering PredicateObjectEntry := do
  let predicates ← m.predicates.mapM TermMap.register
  let objects ← m.objects.mapM ObjectMap.register
  return ⟨predicates, objects⟩

def TriplesMap.register (m : TriplesMap) : Registering TriplesEntry := do
  let subject ← m.subject.register
  let maps ← m.predicateObjectMaps.mapM PredicateObjectMap.register
  return ⟨m.id, m.name, m.table, subject, maps⟩

/-- The register of a mapping. -/
def Mapping.register (m : Mapping) : Register :=
  let (triplesMaps, termMaps) := (m.triplesMaps.mapM TriplesMap.register).run []
  ⟨triplesMaps, termMaps⟩

namespace Register

def triplesMap? (r : Register) (id : Nat) : Option TriplesEntry := r.triplesMaps[id]?

def termMap? (r : Register) (id : Nat) : Option TermEntry := r.termMaps[id]?

/-- The subject map of a triples map. -/
def subjectOf? (r : Register) (id : Nat) : Option TermEntry := do
  let map ← r.triplesMap? id
  r.termMap? map.subject

end Register

end VirtualGraph
