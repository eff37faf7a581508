import VirtualGraph.Bound.Candidate
import VirtualGraph.Draft.Expression

/-!
# Drafts

A draft is a block under construction. It keeps the tables that it reads apart from its other
sources, since columns are added to them as they are needed.
-/

namespace VirtualGraph

/-- A table of a draft: the row that is read from it and the variables of its columns. -/
structure DraftTable where
  row : Nat
  source : TableSource
  vars : List Variable
  deriving DecidableEq

/-- A block under construction. -/
structure Draft where
  tables : List DraftTable
  columns : ColumnIndex
  sources : List Source
  assignments : List Assignment
  filters : List Condition
  bindings : Bindings

/-- Builds with a supply of variables. -/
abbrev DraftBuilder := StateT VariableTable (Except Fault)

/-- A variable that was not taken before. -/
def freshVariable (info : VariableInfo) : DraftBuilder Variable := do
  let t ← get
  set (t ++ [info])
  return t.length

namespace Draft

def empty : Draft := ⟨[], [], [], [], [], []⟩

def addFilter (d : Draft) (c : Condition) : Draft := { d with filters := d.filters ++ [c] }

def addSource (d : Draft) (s : Source) : Draft := { d with sources := d.sources ++ [s] }

def assign (d : Draft) (target : Variable) (value : Scalar) : Draft :=
  { d with assignments := d.assignments ++ [⟨target, value⟩] }

def setBinding (d : Draft) (name : String) (b : Binding) : Draft :=
  { d with bindings := Bindings.insert name b d.bindings }

/-- The finished block. Tables come before other sources. -/
def toBlock (d : Draft) (exposed : List Variable) : Block :=
  ⟨exposed, d.tables.map (fun t => .table t.source t.vars) ++ d.sources, d.assignments,
    d.filters⟩

/-- What an expression over given query variables can see. -/
def scope (d : Draft) (t : VariableTable) (names : List String) : ExpressionScope :=
  ⟨t, d.columns, d.bindings.restrict names⟩

/-- Reads a row from a table, unless it is read already. -/
def addRow (d : Draft) (row : Nat × LogicalTable) : Draft :=
  if d.tables.any (·.row = row.1) then d
  else { d with tables := d.tables ++ [⟨row.1, row.2.source, []⟩] }

/-- Adds a variable to the table of a row. -/
def addTableVariable (d : Draft) (row : Nat) (v : Variable) : Draft :=
  { d with tables := d.tables.map fun t =>
      if t.row = row then { t with vars := t.vars ++ [v] } else t }

/-- Reads a column, unless it is read already. A null in it makes no triple, so it is filtered. -/
def addColumn (d : Draft) (row : Nat) (table : LogicalTable) (name : String) :
    DraftBuilder Draft :=
  match d.columns.lookup (row, name) with
  | some _ => return d
  | none => do
    let nullable := table.isNullable name
    let v ← freshVariable ⟨.column name, table.columnType name, nullable⟩
    let d := { d with columns := d.columns ++ [((row, name), v)] }.addTableVariable row v
    return if nullable then d.addFilter (.notNull v) else d

/-- Reads columns of given rows. -/
def addColumns (rows : List (Nat × LogicalTable)) : Draft → List (Nat × String) →
    DraftBuilder Draft
  | d, [] => return d
  | d, (row, name) :: rest =>
    match rows.lookup row with
    | some table => do
      let d ← d.addColumn row table name
      addColumns rows d rest
    | none => throw (.scope (.noTable row))

/-- Adds join conditions between columns that are read already. -/
def addJoins : Draft → List ((Nat × String) × (Nat × String)) → Result Draft
  | d, [] => .ok d
  | d, (child, parent) :: rest => do
    let v ← d.columns.get child.1 child.2
    let w ← d.columns.get parent.1 parent.2
    addJoins (d.addFilter (.sameVariable v w)) rest

/-- The binding of a variable that two bindings agree on: one that is never null, or the first that
is not null. -/
def merge (d : Draft) (existing new : Binding) : DraftBuilder (Draft × Binding) :=
  if !existing.nullable then return (d, existing)
  else if !new.nullable then return (d, new)
  else do
    let t ← get
    let x ← (existing.toScalar d.columns : Result _)
    let y ← (new.toScalar d.columns : Result _)
    let v ← freshVariable ⟨.derived, (existing.type t).common (new.type t), true⟩
    return (d.assign v (.coalesce [x, y]),
      .value v (existing.shape.merge new.shape) true (existing.escaped && new.escaped))

/-- Binds a query variable. It has to agree with its earlier binding if it has one. -/
def bind (d : Draft) (name : String) (b : Binding) : DraftBuilder Draft :=
  match d.bindings.lookup name with
  | none => return d.setBinding name b
  | some existing => do
    let c ← (existing.equality d.columns b : Result _)
    let (d, merged) ← (d.addFilter c).merge existing b
    return d.setBinding name merged

/-- Binds query variables in order. -/
def bindAll : Draft → Bindings → DraftBuilder Draft
  | d, [] => return d
  | d, (name, b) :: rest => do
    let d ← d.bind name b
    bindAll d rest

/-- Binds the terms of a candidate to the terms of its pattern. -/
def addTerms (c : Candidate) : Draft → List Position → DraftBuilder Draft
  | d, [] => return d
  | d, p :: rest =>
    match c.queryTerm p with
    | .var name => do
      let d ← d.bind name (.term (c.term p))
      addTerms c d rest
    | constant =>
      match BoundTerm.ofTerm? constant with
      | some t => do
        let condition ← (t.equality d.columns (c.term p) : Result _)
        addTerms c (d.addFilter condition) rest
      | none => addTerms c d rest

/-- Adds the triples of a candidate. -/
def addCandidate (d : Draft) (c : Candidate) : DraftBuilder Draft := do
  let d := c.rows.foldl addRow d
  let d ← addColumns c.rows d c.columns
  let d ← (addJoins d c.joins : Result _)
  addTerms c d Position.all

/-- Binds a query variable to the value of an expression over given names. A value that is always
null binds nothing. -/
def extend (d : Draft) (names : List String) (name : String) (e : Expression) :
    DraftBuilder Draft := do
  let t ← get
  let scope := d.scope t names
  if (scope.binding? name).isSome then throw (.unsupported (.rebinding name))
  else
    let copied :=
      match e with
      | .var other => scope.binding? other
      | _ => none
    match copied with
    | some b => d.bind name b
    | none => do
      let v ← (e.value scope : Result _)
      if v.scalar = .null then return d
      else
        let target ← freshVariable ⟨.derived, v.type, v.nullable⟩
        (d.assign target v.scalar).bind name (.value target v.shape v.nullable v.escaped)

/-- Adds the condition of an expression over given names. -/
def restrict (d : Draft) (names : List String) (e : Expression) : DraftBuilder Draft := do
  let t ← get
  let c ← (e.condition (d.scope t names) : Result _)
  return d.addFilter c

end Draft

end VirtualGraph
