import VirtualGraph.Algebra.Expression

/-!
# Graph patterns and queries
-/

namespace VirtualGraph

/-- A graph pattern. -/
inductive GraphPattern where
  /-- The single empty solution. -/
  | unit
  | triple (pattern : TriplePattern)
  | join (members : List GraphPattern)
  | union (branches : List GraphPattern)
  | leftJoin (left right : GraphPattern) (condition : Option Expression)
  | filter (condition : Expression) (inner : GraphPattern)
  | extend (inner : GraphPattern) (name : String) (value : Expression)

/-- Inserts a name into a list in increasing order without repetition. -/
def insertName (name : String) : List String → List String
  | [] => [name]
  | n :: names =>
    if name = n then n :: names
    else if name < n then name :: n :: names
    else n :: insertName name names

/-- The distinct names of a list in increasing order. -/
def sortNames (names : List String) : List String :=
  names.foldr insertName []

namespace GraphPattern

mutual

/-- The variables that solutions may bind, with repetitions. -/
def names : GraphPattern → List String
  | unit => []
  | triple pattern => pattern.variables
  | join members => namesAll members
  | union branches => namesAll branches
  | leftJoin left right _ => names left ++ names right
  | filter _ inner => names inner
  | extend inner name _ => names inner ++ [name]

def namesAll : List GraphPattern → List String
  | [] => []
  | p :: rest => names p ++ namesAll rest

end

end GraphPattern

/-- The variables that solutions may bind, in increasing order. -/
def GraphPattern.variables (p : GraphPattern) : List String := sortNames p.names


/-- A graph pattern with its solution modifiers. -/
structure Query where
  pattern : GraphPattern
  projection : Option (List String)
  distinct : Bool
  limit : Option Nat
  offset : Option Nat

namespace Query

/-- A pattern without modifiers. -/
def ofPattern (pattern : GraphPattern) : Query := ⟨pattern, none, false, none, none⟩

/-- The projected variables; without a projection, all variables of the pattern. -/
def projected (q : Query) : List String := q.projection.getD q.pattern.variables

end Query

end VirtualGraph
