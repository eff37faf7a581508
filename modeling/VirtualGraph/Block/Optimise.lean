import VirtualGraph.Block.Nulls
import VirtualGraph.Block.Revise
import VirtualGraph.Block.Simplify

/-!
# Optimisation of blocks

Deciding null checks makes conditions simpler, and simpler conditions decide more null checks, so
the two steps alternate until neither reports a change or a limit is reached.
-/

namespace VirtualGraph

namespace Revision

/-- Decides the null checks that the facts of a block decide. -/
def resolving (t : VariableTable) : Revision NullFacts where
  inBlock := Block.facts t
  inJoin outer block vars := outer.and ((block.exposedFacts t).restrict vars)
  condition f c := (c.resolveNulls f).1
  conditions cs := cs

/-- Simplifies conditions, one by one and then as a list. -/
def simplifying : Revision Unit where
  inBlock _ := ()
  inJoin _ _ _ := ()
  condition _ c := c.simplify
  conditions := Condition.simplifyAll

end Revision

namespace Block

/-- Both steps once. Null checks are decided only if `eliminate` is set. -/
def round (t : VariableTable) (eliminate : Bool) (b : Block) : Change Block :=
  .andThen b (if eliminate then b.revise (.resolving t) else .unchanged) (revise .simplifying)

/-- Repeats both steps until nothing changes, at most `passes` times. -/
def optimise (t : VariableTable) (eliminate : Bool) : Nat → Block → Block
  | 0, b => b
  | passes + 1, b =>
    match b.round t eliminate with
    | .unchanged => b
    | .changed next => optimise t eliminate passes next

end Block

end VirtualGraph
