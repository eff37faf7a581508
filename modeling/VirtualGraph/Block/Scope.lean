import VirtualGraph.Block.Basic

/-!
# Scoping of blocks

A block is well scoped when every variable is bound where it is read: an assignment reads what the
sources and earlier assignments bind, filters and the conditions of left joins read what the block
binds, and a block exposes only what it binds. Nested blocks are checked on their own, and before
the block around them.
-/

namespace VirtualGraph

namespace Block

/-- A broken rule of scoping. -/
def scopeFault (problem : ScopeProblem) : Fault := .scope problem

/-- A nested block has to expose every variable that is taken from it. -/
def checkExposes (exposed vars : List Variable) : Result Unit :=
  match vars.find? (!exposed.contains ·) with
  | some v => .error (scopeFault (.notExposed v))
  | none => .ok ()

/-- Every variable of a list has to be in scope. -/
def checkRead (scope : List Variable) (problem : Variable → ScopeProblem) (read : List Variable) :
    Result Unit :=
  match read.find? (!scope.contains ·) with
  | some v => .error (scopeFault (problem v))
  | none => .ok ()

/-- Checks assignments in order; the result is the scope after them. -/
def checkAssignments : List Variable → List Assignment → Result (List Variable)
  | scope, [] => .ok scope
  | scope, a :: rest => do
    checkRead scope (.assignment a.target) a.value.referenced
    if scope.contains a.target then .error (scopeFault (.producedTwice a.target))
    else checkAssignments (a.target :: scope) rest

/-- Checks that conditions read only what is in scope. -/
def checkConditions (scope : List Variable) (problem : Variable → ScopeProblem) :
    List Condition → Result Unit
  | [] => .ok ()
  | c :: rest => do
    checkRead scope problem c.referenced
    checkConditions scope problem rest

/-- The conditions of the left joins among the sources. -/
def joinConditions (sources : List Source) : List Condition :=
  sources.flatMap fun
    | .leftJoin _ on _ => on
    | _ => []

mutual

/-- Checks the scoping of a block and of all blocks in it. -/
def validate : Block → Result Unit
  | ⟨exposed, sources, assignments, filters⟩ => do
    validateSources sources
    let bound := sources.flatMap Source.produced
    let scope ← checkAssignments bound assignments
    checkConditions scope .leftJoinCondition (joinConditions sources)
    checkConditions scope .filter filters
    match exposed.find? (!scope.contains ·) with
    | some v => .error (scopeFault (.exposesUnproduced v))
    | none => .ok ()
termination_by structural x => x

def validateSources : List Source → Result Unit
  | [] => .ok ()
  | s :: rest => do
    validateSource s
    validateSources rest
termination_by structural x => x

def validateSource : Source → Result Unit
  | .table _ _ => .ok ()
  | .nested block vars => do
    validate block
    checkExposes block.exposed vars
  | .union index branches vars =>
    if vars.contains index then .error (scopeFault (.caseIsOutput index))
    else validateBranches vars branches
  | .leftJoin block _ vars => do
    validate block
    checkExposes block.exposed vars
termination_by structural x => x

/-- A branch of a union may expose only variables of the union. -/
def validateBranches (vars : List Variable) : List Block → Result Unit
  | [] => .ok ()
  | b :: rest => do
    validate b
    match b.exposed.find? (!vars.contains ·) with
    | some v => .error (scopeFault (.branchExposes v))
    | none => validateBranches vars rest
termination_by structural x => x

end

end Block

end VirtualGraph
