import VirtualGraph.Algebra.Reader
import VirtualGraph.Block.Optimise
import VirtualGraph.Block.Scope
import VirtualGraph.Block.Select
import VirtualGraph.Bound.Distribution
import VirtualGraph.Draft.Build
import VirtualGraph.Explain

/-!
# The compiler

From a query and a mapping to SQL: the query is bound to the mapping, the bound tree is optimised
and becomes a block, the block is optimised and checked, and its statement is written.
-/

namespace VirtualGraph

/-- How queries are compiled. -/
structure CompilerSettings where
  dialect : Dialect := .postgres
  /-- The largest union that a join is distributed into. -/
  maxUnionBranches : Nat := 64
  /-- How often the steps of block optimisation are repeated. -/
  maxPasses : Nat := 8
  eliminateNullChecks : Bool := true
  deriving DecidableEq

/-- A compiled query with the steps on its way. -/
structure Compilation where
  bound : BoundTree
  block : Block
  table : VariableTable
  sql : String
  columns : List String
  dialect : Dialect

namespace CompilerSettings

/-- Optimises a block. -/
def optimise (s : CompilerSettings) (t : VariableTable) (b : Block) : Block :=
  b.optimise t s.eliminateNullChecks s.maxPasses

end CompilerSettings

namespace Query

/-- What is done with the rows of the query. -/
def modifiers (q : Query) : Modifiers := ⟨q.distinct, q.limit, q.offset⟩

/-- Compiles a query. A projected variable that the pattern does not mention is refused. -/
def compile (q : Query) (m : Mapping) (s : CompilerSettings) : Result Compilation :=
  let columns := q.projected
  let known := q.pattern.variables
  match columns.find? (!known.contains ·) with
  | some name => .error (.unknownVariable name)
  | none => do
    let bound := ((BoundTree.bind m 0 q.pattern).1).optimise s.maxUnionBranches
    let plan ← bound.plan columns
    let block := s.optimise plan.table plan.block
    block.validate
    let sql ← (block.sql s.dialect plan.table plan.outputs q.modifiers 0).1
    .ok ⟨bound, block, plan.table, sql, columns, s.dialect⟩

end Query

/-- Reads and compiles a query. -/
def compileText (m : Mapping) (s : CompilerSettings) (text : String) : Result Compilation := do
  let q ← Query.parse text
  q.compile m s

end VirtualGraph
