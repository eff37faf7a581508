import VirtualGraph.Algebra.Query
import VirtualGraph.Bound.Candidate

/-!
# Bound trees

A graph pattern whose triple patterns are bound to a mapping: each is the union of its candidates.
-/

namespace VirtualGraph

/-- A bound graph pattern. -/
inductive BoundTree where
  /-- No solution. -/
  | noMatch
  /-- The single empty solution. -/
  | unit
  | triple (candidate : Candidate)
  | join (members : List BoundTree)
  | union (branches : List BoundTree)
  | leftJoin (left right : BoundTree) (condition : Option Expression)
  | filter (condition : Expression) (inner : BoundTree)
  | extend (inner : BoundTree) (name : String) (value : Expression)

namespace BoundTree

def isNoMatch : BoundTree → Bool
  | noMatch => true
  | _ => false

def isUnion : BoundTree → Bool
  | union _ => true
  | _ => false

/-- The union of branches; none of them is no match, and one is itself. -/
def ofBranches : List BoundTree → BoundTree
  | [] => noMatch
  | [branch] => branch
  | branches => union branches

mutual

/-- The variables that solutions may bind, with repetitions. -/
def names : BoundTree → List String
  | noMatch => []
  | unit => []
  | triple c => c.pattern.variables
  | join members => namesAll members
  | union branches => namesAll branches
  | leftJoin left right _ => names left ++ names right
  | filter _ inner => names inner
  | extend inner name _ => names inner ++ [name]

def namesAll : List BoundTree → List String
  | [] => []
  | t :: rest => names t ++ namesAll rest

end

mutual

/-- The number of nodes. -/
def size : BoundTree → Nat
  | noMatch => 1
  | unit => 1
  | triple _ => 1
  | join members => 1 + sizeAll members
  | union branches => 1 + sizeAll branches
  | leftJoin left right _ => 1 + (size left + size right)
  | filter _ inner => 1 + size inner
  | extend inner _ _ => 1 + size inner

def sizeAll : List BoundTree → Nat
  | [] => 0
  | t :: rest => size t + sizeAll rest

end

mutual

/-- The number of candidates. -/
def candidateCount : BoundTree → Nat
  | noMatch => 0
  | unit => 0
  | triple _ => 1
  | join members => candidateCountAll members
  | union branches => candidateCountAll branches
  | leftJoin left right _ => candidateCount left + candidateCount right
  | filter _ inner => candidateCount inner
  | extend inner _ _ => candidateCount inner

def candidateCountAll : List BoundTree → Nat
  | [] => 0
  | t :: rest => candidateCount t + candidateCountAll rest

end

mutual

/-- Binds a graph pattern to a mapping. Rows are numbered from `row`; the next free number is
returned. -/
def bind (m : Mapping) (row : Nat) : GraphPattern → BoundTree × Nat
  | .unit => (unit, row)
  | .triple pattern =>
    let (candidates, next) := Candidate.ofRules pattern row m.rules
    (ofBranches (candidates.map triple), next)
  | .join members =>
    let (members, next) := bindAll m row members
    (join members, next)
  | .union branches =>
    let (branches, next) := bindAll m row branches
    (union branches, next)
  | .leftJoin left right condition =>
    let (left, middle) := bind m row left
    let (right, next) := bind m middle right
    (leftJoin left right condition, next)
  | .filter condition inner =>
    let (inner, next) := bind m row inner
    (filter condition inner, next)
  | .extend inner name value =>
    let (inner, next) := bind m row inner
    (extend inner name value, next)

def bindAll (m : Mapping) (row : Nat) : List GraphPattern → List BoundTree × Nat
  | [] => ([], row)
  | p :: rest =>
    let (t, middle) := bind m row p
    let (ts, next) := bindAll m middle rest
    (t :: ts, next)

end

mutual

/-- Removes the candidates that cannot match. -/
def prune : BoundTree → BoundTree
  | noMatch => noMatch
  | unit => unit
  | triple c => if c.canMatch then triple c else noMatch
  | join members => join (pruneAll members)
  | union branches => ofBranches ((pruneAll branches).filter (!·.isNoMatch))
  | leftJoin left right condition => leftJoin (prune left) (prune right) condition
  | filter condition inner => filter condition (prune inner)
  | extend inner name value => extend (prune inner) name value

def pruneAll : List BoundTree → List BoundTree
  | [] => []
  | t :: rest => prune t :: pruneAll rest

end

end BoundTree

/-- The variables that solutions may bind, in increasing order. -/
def BoundTree.variables (t : BoundTree) : List String := sortNames t.names

end VirtualGraph
