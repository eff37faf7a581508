import VirtualGraph.Block.Scalar
import VirtualGraph.Mapping.Basic

/-!
# Blocks

A block is one level of a query: sources that bind variables to rows, assignments that compute
further variables, and filters. It exposes some of its variables to the block around it.
-/

namespace VirtualGraph

/-- What a variable stands for. -/
inductive VariableKind where
  | column (name : String)
  | derived
  | output (name : String)
  deriving DecidableEq

structure VariableInfo where
  kind : VariableKind
  type : SqlType
  nullable : Bool
  deriving DecidableEq

/-- What is known about the variables, each at the place of its number. -/
abbrev VariableTable := List VariableInfo

namespace VariableTable

/-- What is known about a variable. Nothing is known about one that is not in the table. -/
def info (t : VariableTable) (v : Variable) : VariableInfo := t[v]?.getD ⟨.derived, .string, true⟩

def type (t : VariableTable) (v : Variable) : SqlType := (t.info v).type

end VariableTable

/-- Gives a variable a value. -/
structure Assignment where
  target : Variable
  value : Scalar
  deriving DecidableEq

mutual

/-- One level of a query. -/
structure Block where
  exposed : List Variable
  sources : List Source
  assignments : List Assignment
  filters : List Condition

/-- Binds variables to rows. -/
inductive Source where
  /-- The rows of a table. -/
  | table (table : TableSource) (vars : List Variable)
  /-- The rows of a nested block. -/
  | nested (block : Block) (vars : List Variable)
  /-- The rows of all branches. `index` is the number of the branch that a row comes from; a
  variable that the branch does not expose is null. -/
  | union (index : Variable) (branches : List Block) (vars : List Variable)
  /-- The rows of a nested block that meet the conditions, or one row of nulls if none does. -/
  | leftJoin (block : Block) (on : List Condition) (vars : List Variable)

end

mutual

/-- Equality of blocks. -/
def Block.beq : Block → Block → Bool
  | ⟨vs, ss, as, fs⟩, ⟨vs', ss', as', fs'⟩ =>
    vs == vs' && Source.beqAll ss ss' && as == as' && fs == fs'
termination_by structural x => x

def Block.beqAll : List Block → List Block → Bool
  | [], [] => true
  | b :: bs, c :: cs => Block.beq b c && Block.beqAll bs cs
  | _, _ => false
termination_by structural x => x

/-- Equality of sources. -/
def Source.beq : Source → Source → Bool
  | .table t vs, .table t' vs' => t == t' && vs == vs'
  | .nested b vs, .nested b' vs' => Block.beq b b' && vs == vs'
  | .union i bs vs, .union i' bs' vs' => i == i' && Block.beqAll bs bs' && vs == vs'
  | .leftJoin b cs vs, .leftJoin b' cs' vs' => Block.beq b b' && cs == cs' && vs == vs'
  | _, _ => false
termination_by structural x => x

def Source.beqAll : List Source → List Source → Bool
  | [], [] => true
  | s :: ss, t :: ts => Source.beq s t && Source.beqAll ss ts
  | _, _ => false
termination_by structural x => x

end

mutual

theorem Block.beq_iff (b c : Block) : Block.beq b c = true ↔ b = c := by
  cases b
  cases c
  simp [Block.beq, Source.beqAll_iff, and_assoc]
termination_by structural b

theorem Block.beqAll_iff (bs cs : List Block) : Block.beqAll bs cs = true ↔ bs = cs := by
  cases bs <;> cases cs <;> simp [Block.beqAll, Block.beq_iff, Block.beqAll_iff]
termination_by structural bs

theorem Source.beq_iff (s t : Source) : Source.beq s t = true ↔ s = t := by
  cases s <;> cases t <;> simp [Source.beq, Block.beq_iff, Block.beqAll_iff, and_assoc]
termination_by structural s

theorem Source.beqAll_iff (ss ts : List Source) : Source.beqAll ss ts = true ↔ ss = ts := by
  cases ss <;> cases ts <;> simp [Source.beqAll, Source.beq_iff, Source.beqAll_iff]
termination_by structural ss

end

instance : DecidableEq Block := fun b c => decidable_of_iff _ (Block.beq_iff b c)

instance : DecidableEq Source := fun s t => decidable_of_iff _ (Source.beq_iff s t)

instance : Inhabited Block := ⟨⟨[], [], [], []⟩⟩

instance : Inhabited Source := ⟨.table (.table "") []⟩

namespace Source

/-- The variables that a source binds. -/
def produced : Source → List Variable
  | table _ vars => vars
  | nested _ vars => vars
  | union index _ vars => index :: vars
  | leftJoin _ _ vars => vars

end Source

namespace Block

/-- The variables that the sources and assignments of a block bind. -/
def produced (b : Block) : List Variable :=
  b.sources.flatMap Source.produced ++ b.assignments.map (·.target)

end Block

end VirtualGraph
