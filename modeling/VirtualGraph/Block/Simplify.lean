import VirtualGraph.Block.Basic

/-!
# Simplification of conditions

Conditions are simplified from the leaves up by the laws of connectives: nested connectives of one
kind are opened, repetitions and neutral members go away, and an absorbing member is the whole
connective. A double negation cancels and a negated comparison is the opposite one, which is unknown
on the same rows.
-/

namespace VirtualGraph

/-- The two connectives. -/
inductive Connective where
  | and
  | or
  deriving DecidableEq

namespace Connective

/-- The member that decides the connective. -/
def absorbing : Connective → Condition
  | and => .never
  | or => .always

/-- The member that does not matter. -/
def neutral : Connective → Condition
  | and => .always
  | or => .never

def apply : Connective → List Condition → Condition
  | and, items => .and items
  | or, items => .or items

def dual : Connective → Connective
  | and => or
  | or => and

/-- The members of a condition that is such a connective. -/
def members? : Connective → Condition → Option (List Condition)
  | and, .and items => some items
  | or, .or items => some items
  | _, _ => none

end Connective

/-- Adds the conditions that are not there yet at the end of a list. -/
def addNew (seen : List Condition) : List Condition → List Condition
  | [] => seen
  | c :: rest => if seen.contains c then addNew seen rest else addNew (seen ++ [c]) rest

namespace Condition

/-- The connective of simplified members. A member of the dual kind that shares one of its members
with the connective goes away. -/
def connect (k : Connective) (items : List Condition) : Condition :=
  let opened := items.flatMap fun c => (k.members? c).getD [c]
  if opened.contains k.absorbing then k.absorbing
  else
    let flat := addNew [] (opened.filter (· ≠ k.neutral))
    let kept := flat.filter fun c => !((k.dual.members? c).getD []).any flat.contains
    match kept with
    | [] => k.neutral
    | [c] => c
    | _ => k.apply kept

/-- The negation of a simplified condition. -/
def negate : Condition → Condition
  | always => never
  | never => always
  | not inner => inner
  | compare op l r => compare op.negate l r
  | c => not c

mutual

/-- Simplifies a condition. -/
def simplify : Condition → Condition
  | and items => connect .and (simplifyEach items)
  | or items => connect .or (simplifyEach items)
  | not inner => negate (simplify inner)
  | always => always
  | never => never
  | compare op l r => compare op l r
  | sameVariable a b => sameVariable a b
  | sameValue l r => sameValue l r
  | isNull v => isNull v
  | langMatches x range => langMatches x range
  | like x pattern => like x pattern

def simplifyEach : List Condition → List Condition
  | [] => []
  | c :: rest => simplify c :: simplifyEach rest

end

/-- The members of a simplified condition in a list of conditions that all have to hold. -/
def conjuncts : Condition → List Condition
  | always => []
  | and items => items
  | c => [c]

/-- Simplifies conditions that all have to hold. -/
def simplifyAll (conditions : List Condition) : List Condition :=
  let each := simplifyEach conditions
  if each.contains never then [never] else addNew [] (each.flatMap conjuncts)

end Condition

mutual

/-- Simplifies the conditions of the cases in a scalar. -/
def Scalar.simplify : Scalar → Scalar
  | .column v => .column v
  | .constant text type => .constant text type
  | .null => .null
  | .concat items => .concat (Scalar.simplifyEach items)
  | .coalesce items => .coalesce (Scalar.simplifyEach items)
  | .case branches otherwise =>
    .case (Scalar.simplifyBranches branches) (Scalar.simplify otherwise)
termination_by structural x => x

def Scalar.simplifyEach : List Scalar → List Scalar
  | [] => []
  | x :: rest => Scalar.simplify x :: Scalar.simplifyEach rest
termination_by structural x => x

def Scalar.simplifyBranches : List (Condition × Scalar) → List (Condition × Scalar)
  | [] => []
  | (c, x) :: rest => (c.simplify, Scalar.simplify x) :: Scalar.simplifyBranches rest
termination_by structural x => x

end

/-- Simplifies the value of an assignment. -/
def Assignment.simplify (a : Assignment) : Assignment := ⟨a.target, a.value.simplify⟩

/-- Simplifies conditions one by one and then as a list. -/
def Condition.simplifyList (conditions : List Condition) : List Condition :=
  Condition.simplifyAll (Condition.simplifyEach conditions)

mutual

/-- Simplifies all conditions of a block. -/
def Block.simplify : Block → Block
  | ⟨exposed, sources, assignments, filters⟩ =>
    ⟨exposed, Source.simplifyEach sources, assignments.map Assignment.simplify,
      Condition.simplifyList filters⟩
termination_by structural x => x

def Block.simplifyEach : List Block → List Block
  | [] => []
  | b :: rest => Block.simplify b :: Block.simplifyEach rest
termination_by structural x => x

def Source.simplify : Source → Source
  | .table t vars => .table t vars
  | .nested block vars => .nested (Block.simplify block) vars
  | .union index branches vars => .union index (Block.simplifyEach branches) vars
  | .leftJoin block on vars =>
    .leftJoin (Block.simplify block) (Condition.simplifyList on) vars
termination_by structural x => x

def Source.simplifyEach : List Source → List Source
  | [] => []
  | s :: rest => Source.simplify s :: Source.simplifyEach rest
termination_by structural x => x

end

end VirtualGraph
