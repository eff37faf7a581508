import VirtualGraph.Block.Basic
import VirtualGraph.Sql.Select

/-!
# Select statements of blocks

Every block becomes one select statement. Sources become numbered sources of the statement; an
assignment has no column of its own, its value stands wherever the variable is read.
-/

namespace VirtualGraph

mutual

/-- The type of a scalar; a bare null has none. -/
def Scalar.type? (t : VariableTable) : Scalar → Option SqlType
  | .column v => some (t.type v)
  | .constant _ type => some type
  | .null => none
  | .concat _ => some .string
  | .coalesce items => SqlType.commonAll (Scalar.typesOf t items)
  | .case branches otherwise =>
    SqlType.commonAll (Scalar.branchTypes t branches ++ (Scalar.type? t otherwise).toList)
termination_by structural x => x

def Scalar.typesOf (t : VariableTable) : List Scalar → List SqlType
  | [] => []
  | x :: rest => (Scalar.type? t x).toList ++ Scalar.typesOf t rest
termination_by structural x => x

def Scalar.branchTypes (t : VariableTable) : List (Condition × Scalar) → List SqlType
  | [] => []
  | (_, x) :: rest => (Scalar.type? t x).toList ++ Scalar.branchTypes t rest
termination_by structural x => x

end

namespace SqlValue

/-- Converts a value to a type, if it has another. -/
def castFrom (type? : Option SqlType) (target : SqlType) (x : SqlValue) : SqlValue :=
  match type? with
  | some type => if type = target then x else cast x target
  | none => x

end SqlValue

/-- A comparison of values. Values of different types are compared as strings, unless both are
numbers. -/
def SqlCondition.ofComparison (op : Comparator) (leftType rightType : Option SqlType)
    (left right : SqlValue) : SqlCondition :=
  match leftType, rightType with
  | some l, some r =>
    if l ≠ r ∧ ¬(l.isNumeric ∧ r.isNumeric) then
      .compare op (.cast left .string) (.cast right .string)
    else .compare op left right
  | _, _ => .compare op left right

mutual

/-- The value of a scalar, given the values of variables. -/
def Scalar.toSql (t : VariableTable) (resolve : Variable → Result SqlValue) :
    Scalar → Result SqlValue
  | .column v => resolve v
  | .constant text type => .ok (.constant text type)
  | .null => .ok .null
  | .concat [] => .ok (.constant "" .string)
  | .concat (x :: rest) => do
    let x' ← Scalar.toSql t resolve x
    let rest' ← Scalar.toSqlEach t resolve .string rest
    .ok (.concat (x'.castFrom (x.type? t) .string :: rest'))
  | .coalesce items => do
    let target := (SqlType.commonAll (Scalar.typesOf t items)).getD .string
    let items ← Scalar.toSqlEach t resolve target items
    .ok (.coalesce items)
  | .case branches otherwise => do
    let branches ← Scalar.toSqlBranches t resolve branches
    let otherwise ← Scalar.toSql t resolve otherwise
    .ok (.case branches otherwise)
termination_by structural x => x

/-- The values of scalars, each converted to a type. -/
def Scalar.toSqlEach (t : VariableTable) (resolve : Variable → Result SqlValue)
    (target : SqlType) : List Scalar → Result (List SqlValue)
  | [] => .ok []
  | x :: rest => do
    let x' ← Scalar.toSql t resolve x
    let rest' ← Scalar.toSqlEach t resolve target rest
    .ok (x'.castFrom (x.type? t) target :: rest')
termination_by structural x => x

def Scalar.toSqlBranches (t : VariableTable) (resolve : Variable → Result SqlValue) :
    List (Condition × Scalar) → Result (List (SqlCondition × SqlValue))
  | [] => .ok []
  | (c, x) :: rest => do
    let c ← Condition.toSql t resolve c
    let x ← Scalar.toSql t resolve x
    let rest ← Scalar.toSqlBranches t resolve rest
    .ok ((c, x) :: rest)
termination_by structural x => x

/-- The statement's form of a condition, given the values of variables. -/
def Condition.toSql (t : VariableTable) (resolve : Variable → Result SqlValue) :
    Condition → Result SqlCondition
  | .always => .ok .always
  | .never => .ok .never
  | .and items => do
    let items ← Condition.toSqlEach t resolve items
    .ok (.and items)
  | .or items => do
    let items ← Condition.toSqlEach t resolve items
    .ok (.or items)
  | .not (.isNull v) => do
    let x ← resolve v
    .ok (.isNotNull x)
  | .not inner => do
    let inner ← Condition.toSql t resolve inner
    .ok (.not inner)
  | .compare op l r => do
    let l' ← Scalar.toSql t resolve l
    let r' ← Scalar.toSql t resolve r
    .ok (.ofComparison op (l.type? t) (r.type? t) l' r')
  | .sameVariable a b => do
    let a' ← resolve a
    let b' ← resolve b
    .ok (.ofComparison .eq (some (t.type a)) (some (t.type b)) a' b')
  | .sameValue l r => do
    let l' ← Scalar.toSql t resolve l
    let r' ← Scalar.toSql t resolve r
    .ok (.ofComparison .eq (l.type? t) (r.type? t) l' r')
  | .isNull v => do
    let x ← resolve v
    .ok (.isNull x)
  | .langMatches x range => do
    let x' ← Scalar.toSql t resolve x
    .ok (.langMatches (x'.castFrom (x.type? t) .string) range)
  | .like x pattern => do
    let x' ← Scalar.toSql t resolve x
    .ok (.like (x'.castFrom (x.type? t) .string) pattern)
termination_by structural x => x

def Condition.toSqlEach (t : VariableTable) (resolve : Variable → Result SqlValue) :
    List Condition → Result (List SqlCondition)
  | [] => .ok []
  | c :: rest => do
    let c ← Condition.toSql t resolve c
    let rest ← Condition.toSqlEach t resolve rest
    .ok (c :: rest)
termination_by structural x => x

end

/-- The variables that a block has bound so far, the latest first, and all of its assignments. -/
structure SelectScope where
  columns : List (Variable × SqlValue)
  assignments : List Assignment

namespace SelectScope

/-- The value that a variable is assigned; the last assignment counts. -/
def assigned? (s : SelectScope) (v : Variable) : Option Scalar :=
  (s.assignments.reverse.find? (·.target = v)).map (·.value)

/-- The value of a variable: its column, or the value that it is assigned, converted to the type of
the variable. Assigned values are followed at most `depth` times. -/
def resolveIn (s : SelectScope) (t : VariableTable) : Nat → Variable → Result SqlValue
  | depth, v =>
    match s.columns.lookup v, depth, s.assigned? v with
    | some column, _, _ => .ok column
    | none, depth + 1, some x => do
      let x' ← x.toSql t (resolveIn s t depth)
      .ok (x'.castFrom (x.type? t) (t.type v))
    | none, _, _ => .error (.scope (.notInScope v))

/-- The value of a variable. No chain of assignments is longer than their number. -/
def resolve (s : SelectScope) (t : VariableTable) (v : Variable) : Result SqlValue :=
  s.resolveIn t s.assignments.length v

/-- Binds variables to the columns of a nested statement. -/
def bindNested (s : SelectScope) (source : Nat) (vs : List Variable) : SelectScope :=
  { s with columns := (vs.map fun v => (v, .nestedColumn source v)).reverse ++ s.columns }

end SelectScope

/-- Builds with a supply of source numbers. Numbers that were taken stay taken after a failure. -/
abbrev SelectBuilder := ExceptT Fault (StateM Nat)

/-- A source number that was not taken before. -/
def freshSource : SelectBuilder Nat := do
  let n ← get
  set (n + 1)
  return n

/-- What a statement selects. -/
inductive Selected where
  | var (v : Variable)
  /-- The number of a branch. -/
  | index (n : Nat)
  /-- A variable that a branch does not expose. -/
  | missing (type : SqlType)

namespace SelectScope

/-- The value that is selected. -/
def selected (s : SelectScope) (t : VariableTable) : Selected → Result SqlValue
  | .var v => s.resolve t v
  | .index n => .ok (.number n)
  | .missing type => .ok (.cast .null type)

/-- The columns of a statement. -/
def select (s : SelectScope) (t : VariableTable) :
    List (Selected × SqlName) → Result (List (SqlValue × SqlName))
  | [] => .ok []
  | (what, name) :: rest => do
    let x ← s.selected t what
    let xs ← s.select t rest
    .ok ((x, name) :: xs)

/-- Binds variables to the columns of a table. -/
def bindTable (s : SelectScope) (t : VariableTable) (source : Nat) :
    List Variable → Result SelectScope
  | [] => .ok s
  | v :: rest =>
    match (t.info v).kind with
    | .column name =>
      { s with columns := (v, .tableColumn source name) :: s.columns }.bindTable t source rest
    | _ => .error (.scope (.notColumn v))

end SelectScope

namespace Selected

/-- The variables of a nested block. -/
def ofVariables (vs : List Variable) : List (Selected × SqlName) :=
  vs.map fun v => (.var v, .var v)

/-- The columns of a numbered branch of a union. -/
def ofBranch (t : VariableTable) (index : Variable) (vs : List Variable) (n : Nat)
    (exposed : List Variable) : List (Selected × SqlName) :=
  (.index n, .var index) ::
    vs.map fun v => (if exposed.contains v then .var v else .missing (t.type v), .var v)

end Selected

mutual

/-- The statement of a block that selects given columns. -/
def Block.toSelect (t : VariableTable) (distinct : Bool) (columns : List (Selected × SqlName)) :
    Block → SelectBuilder Select
  | ⟨_, sources, assignments, filters⟩ => do
    let (scope, sources) ← Source.toSqlEach t ⟨[], assignments⟩ true sources
    let columns ← (scope.select t columns : Result _)
    let filters ← (Condition.toSqlEach t (scope.resolve t) filters : Result _)
    return ⟨distinct, columns, sources, filters⟩
termination_by structural x => x

/-- The statements of the branches of a union, numbered from `n`. -/
def Block.toBranches (t : VariableTable) (index : Variable) (vs : List Variable) (n : Nat) :
    List Block → SelectBuilder (List Select)
  | [] => return []
  | b :: rest => do
    let s ← Block.toSelect t false (Selected.ofBranch t index vs n b.exposed) b
    let ss ← Block.toBranches t index vs (n + 1) rest
    return s :: ss
termination_by structural x => x

/-- The sources of a statement, and the scope after them. `first` says that there is none before
them. -/
def Source.toSqlEach (t : VariableTable) (scope : SelectScope) (first : Bool) :
    List Source → SelectBuilder (SelectScope × List SqlSource)
  | [] => return (scope, [])
  | s :: rest => do
    let (scope, items) ← Source.toSql t scope first s
    let (scope, more) ← Source.toSqlEach t scope false rest
    return (scope, items ++ more)
termination_by structural x => x

/-- A source of a statement. The conditions of a left join see the sources up to it and all
assignments. -/
def Source.toSql (t : VariableTable) (scope : SelectScope) (first : Bool) :
    Source → SelectBuilder (SelectScope × List SqlSource)
  | .table table vs => do
    let n ← freshSource
    let scope ← (scope.bindTable t n vs : Result _)
    return (scope, [.table table n])
  | .nested block vs => do
    let s ← Block.toSelect t false (Selected.ofVariables vs) block
    let n ← freshSource
    return (scope.bindNested n vs, [.nested s n])
  | .union index branches vs => do
    let ss ← Block.toBranches t index vs 0 branches
    let n ← freshSource
    return (scope.bindNested n (index :: vs), [.union ss n])
  | .leftJoin block on vs => do
    let s ← Block.toSelect t false (Selected.ofVariables vs) block
    let n ← freshSource
    let scope := scope.bindNested n vs
    let left ← if first then do
        let one ← freshSource
        pure [SqlSource.oneRow one]
      else pure []
    let on ← (Condition.toSqlEach t (scope.resolve t) on : Result _)
    return (scope, left ++ [.leftJoin s n on])
termination_by structural x => x

end

/-- What is done with the rows of a whole query. -/
structure Modifiers where
  distinct : Bool
  limit : Option Nat
  offset : Option Nat
  deriving DecidableEq

namespace Block

/-- The SQL text of a block that selects each output variable under its name. Sources are numbered
from `next`; the next free number is returned. -/
def sql (d : Dialect) (t : VariableTable) (b : Block) (outputs : List (String × Variable))
    (m : Modifiers) (next : Nat) : Result String × Nat :=
  let columns := outputs.map fun (name, v) => (.var v, .output name)
  let (s, next) := (b.toSelect t m.distinct columns).run.run next
  (s.map fun s => d.select s ++ d.limitOffset m.limit m.offset, next)

end Block

/-- A block to be written, and what it is written for. -/
structure SelectRequest where
  block : Block
  outputs : List (String × Variable)
  modifiers : Modifiers

/-- The SQL texts of one request after the other. Each goes on with the source numbers that the one
before it left, also where that one failed. -/
def SelectRequest.sqlEach (d : Dialect) (t : VariableTable) :
    List SelectRequest → Nat → List (Result String)
  | [], _ => []
  | q :: rest, next =>
    let (text, next) := q.block.sql d t q.outputs q.modifiers next
    text :: sqlEach d t rest next

end VirtualGraph
