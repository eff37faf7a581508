import VirtualGraph.Proofs.Block.Rows
import VirtualGraph.Proofs.Draft.Nested

/-!
# Tests of plans

The expressions of filters and left joins become conditions of blocks. Each is compiled in a scope:
the bindings that the draft has at that moment, whatever is added to it later.

A filter is tested on the rows of all sources of its block; the condition of a left join is tested
on pairs of a row of the sources before it and a row of its own.
-/

namespace VirtualGraph

variable {α : Type}

/-! ### Tests -/

namespace Block

/-- A block is another one, or is nested in it. -/
inductive Within (b : Block) : Block → Prop
  | self : Within b b
  | nested {c inner : Block} {s : Source} (hs : s ∈ c.sources) (hinner : inner ∈ s.blocks)
    (h : Within b inner) : Within b c

/-- The rows that the conditions of a left join are tested on: those of the sources joined so far,
each with each row of the left join. -/
def pairRows (D : ValueDomain α) (db : Database α) (t : VariableTable) (b : Block)
    (before : List Source) (s : Source) : Multiset (Row α) :=
  ((Source.joinAll Source.cross (sourceRowsEach D db t b.sources) Row.null).bind
    (Source.joinAll (Source.outer D b.assignments) (sourceRowsEach D db t before))).bind fun row =>
      ((sourceRows D db t s).map (row.take s.produced)).map (Assignment.run D b.assignments)

/-- No column of a table is null that the block has a filter against. -/
def Guarded (b : Block) (row : Row α) : Prop :=
  ∀ source vs, .table source vs ∈ b.sources → ∀ v ∈ vs, .notNull v ∈ b.filters → row v ≠ none

end Block

/-- An expression that became a condition of a block. -/
structure Test where
  block : Block
  expression : Expression
  /-- What the expression could see. -/
  scope : ExpressionScope
  /-- The left join that has the condition; otherwise the block has it as a filter. -/
  leftJoin? : Option Source

namespace Test

/-- The condition of the expression stands where it is tested. -/
def Placed (test : Test) : Prop :=
  ∃ c, test.expression.condition test.scope = .ok c ∧
    match test.leftJoin? with
    | none => c ∈ test.block.filters
    | some s => s ∈ test.block.sources ∧ ∃ on, s.on? = some on ∧ c ∈ on

/-- The condition is tested on a row. -/
def Sees (D : ValueDomain α) (db : Database α) (t : VariableTable) (test : Test) (row : Row α) :
    Prop :=
  match test.leftJoin? with
  | none => row ∈ test.block.candidateRows D db t
  | some s => ∃ before after, test.block.sources = before ++ s :: after ∧
    row ∈ test.block.pairRows D db t before s

/-- On the rows that it is tested on, unless a guarded column is null, a test whether a query
variable is bound is true on those where the value of its binding is not null. -/
def Exact (D : ValueDomain α) (db : Database α) (t : VariableTable) (test : Test) : Prop :=
  ∀ row, test.Sees D db t row → test.block.Guarded row → ∀ name,
    ∃ c v, (Expression.bound name).condition test.scope = .ok c ∧
      test.scope.variableValue name = .ok v ∧
      (c.eval D row = .yes ↔ v.scalar.eval D row ≠ none)

end Test

end VirtualGraph
