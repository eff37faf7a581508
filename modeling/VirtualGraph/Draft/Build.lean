import VirtualGraph.Bound.Tree
import VirtualGraph.Draft.Basic

/-!
# Blocks of bound trees

Joins, filters and bindings add to one block. The branches of a union and the right side of a left
join are blocks of their own, whose query variables are exposed to the block around them.
-/

namespace VirtualGraph

/-- Adds the variables that are not there yet at the end of a list. -/
def addVariables (vs : List Variable) : List Variable → List Variable
  | [] => vs
  | v :: rest => if vs.contains v then addVariables vs rest else addVariables (vs ++ [v]) rest

/-- A union under construction: its branches with what they expose, the variables that it binds, and
the bindings of query variables to them. -/
structure UnionDraft where
  branches : List (Draft × List Variable)
  vars : List Variable
  bindings : Bindings

namespace UnionDraft

/-- Exposes a query variable under one variable in all branches that bind it. The shapes of its
terms may depend on further variables, which are exposed too and returned. -/
def exposeName (output : Variable) (name : String) : List (Draft × List Variable) →
    Result (List (Draft × List Variable) × List Variable)
  | [] => .ok ([], [])
  | (d, exposed) :: rest =>
    match d.bindings.lookup name with
    | none => do
      let (rest, indices) ← exposeName output name rest
      .ok ((d, exposed) :: rest, indices)
    | some b => do
      let x ← b.toScalar d.columns
      let own := b.shape.indices
      let (rest, indices) ← exposeName output name rest
      .ok ((d.assign output x, addVariables (exposed ++ [output]) own) :: rest, own ++ indices)

/-- The shape of terms from several branches: a known one that all branches share, or what the
branch says. -/
def shape (index : Variable) (shapes : List (Option Shape)) : Shape :=
  match shapes.filterMap id with
  | .known s :: rest => if rest.all (· = .known s) then .known s else .byBranch index shapes
  | _ => .byBranch index shapes

/-- Adds a query variable to a union. It is null in the branches that do not bind it. -/
def addName (index : Variable) (u : UnionDraft) (name : String) : DraftBuilder UnionDraft := do
  let t ← get
  let found := u.branches.map fun (d, _) => d.bindings.lookup name
  let bound := found.filterMap id
  let type := (SqlType.commonAll (bound.map (·.type t))).getD .string
  let nullable := found.any fun b => (b.map Binding.nullable).getD true
  let output ← freshVariable ⟨.derived, type, nullable⟩
  let (branches, indices) ← (exposeName output name u.branches : Result _)
  let shape := shape index (found.map (·.map Binding.shape))
  let binding := .value output shape nullable (bound.all Binding.escaped)
  return ⟨branches, addVariables (u.vars ++ [output]) indices,
    u.bindings ++ [(name, binding)]⟩

/-- Adds query variables to a union. -/
def addNames (index : Variable) : UnionDraft → List String → DraftBuilder UnionDraft
  | u, [] => return u
  | u, name :: rest => do
    let u ← u.addName index name
    addNames index u rest

end UnionDraft

namespace Draft

/-- Adds the union of branches. -/
def addUnion (d : Draft) (index : Variable) (branches : List Draft) : DraftBuilder Draft := do
  let names := sortNames (branches.flatMap fun b => b.bindings.map (·.1))
  let u ← UnionDraft.addNames index ⟨branches.map (·, []), [], []⟩ names
  let blocks := u.branches.map fun (b, exposed) => b.toBlock exposed
  bindAll (d.addSource (.union index blocks u.vars)) u.bindings

/-- Exposes query variables of a nested draft. The result is the draft, what it exposes, and the
bindings to it. -/
def exposeAll : Draft → List Variable → Bindings → DraftBuilder (Draft × List Variable × Bindings)
  | nested, exposed, [] => return (nested, exposed, [])
  | nested, exposed, (name, b) :: rest => do
    let t ← get
    let x ← (b.toScalar nested.columns : Result _)
    let output ← freshVariable ⟨.derived, b.type t, b.nullable⟩
    let exposed := addVariables (exposed ++ [output]) b.shape.indices
    let (nested, exposed, bindings) ← exposeAll (nested.assign output x) exposed rest
    return (nested, exposed, (name, .value output b.shape b.nullable b.escaped) :: bindings)

/-- The conditions under which bindings agree with those of the left side. -/
def sharedConditions (d : Draft) (names : List String) : Bindings → Result (List Condition)
  | [] => .ok []
  | (name, b) :: rest =>
    match names.contains name, d.bindings.lookup name with
    | true, some left => do
      let c ← left.equality d.columns b
      let cs ← sharedConditions d names rest
      .ok (c :: cs)
    | _, _ => sharedConditions d names rest

/-- Binds the query variables of the right side of a left join, which may now be null. Those of the
left side agree with them already. -/
def bindOptional (names : List String) : Draft → Bindings → DraftBuilder Draft
  | d, [] => return d
  | d, (name, b) :: rest => do
    let padded :=
      match b with
      | .value v shape _ escaped => .value v shape true escaped
      | .term t => .term t
    let d ←
      match names.contains name, d.bindings.lookup name with
      | true, some existing => do
        let (d, merged) ← d.merge existing padded
        pure (d.setBinding name merged)
      | _, _ => d.bind name padded
    bindOptional names d rest

/-- Adds a left join with a nested draft. `names` are the query variables of the left side. -/
def addLeftJoin (d : Draft) (names : List String) (nested : Draft)
    (condition : Option Expression) : DraftBuilder Draft := do
  let (nested, exposed, bindings) ← exposeAll nested [] nested.bindings
  let shared ← (sharedConditions d names bindings : Result _)
  let t ← get
  let own ←
    match condition with
    | some e => do
      let scope := d.scope t names
      let c ← (e.condition { scope with bindings := scope.bindings ++ bindings } : Result _)
      pure [c]
    | none => pure []
  let d := d.addSource (.leftJoin (nested.toBlock exposed) (shared ++ own) exposed)
  bindOptional names d bindings

end Draft

namespace BoundTree

mutual

/-- Adds the solutions of a tree to a draft. -/
def addTo (d : Draft) : BoundTree → DraftBuilder Draft
  | noMatch => return d.addFilter .never
  | unit => return d
  | triple c => d.addCandidate c
  | join members => addAllTo d members
  | union branches => do
    let index ← freshVariable ⟨.derived, .integer, false⟩
    let drafts ← draftEach branches
    d.addUnion index drafts
  | leftJoin left right condition => do
    let d ← addTo d left
    let nested ← addTo .empty right
    d.addLeftJoin left.variables nested condition
  | filter condition inner => do
    let d ← addTo d inner
    d.restrict inner.variables condition
  | extend inner name value => do
    let d ← addTo d inner
    d.extend inner.variables name value
termination_by structural x => x

def addAllTo (d : Draft) : List BoundTree → DraftBuilder Draft
  | [] => return d
  | t :: rest => do
    let d ← addTo d t
    addAllTo d rest
termination_by structural x => x

/-- A draft of its own for each tree. -/
def draftEach : List BoundTree → DraftBuilder (List Draft)
  | [] => return []
  | t :: rest => do
    let d ← addTo .empty t
    let ds ← draftEach rest
    return d :: ds
termination_by structural x => x

end

end BoundTree

/-- A block with the variables that hold the projected query variables. -/
structure Plan where
  block : Block
  table : VariableTable
  outputs : List (String × Variable)

namespace Draft

/-- Assigns the projected query variables to output variables. One that is not bound is null. -/
def project : Draft → List String → DraftBuilder (Draft × List (String × Variable))
  | d, [] => return (d, [])
  | d, name :: rest => do
    let t ← get
    let (x, info) ←
      match d.bindings.lookup name with
      | some b => do
        let x ← (b.toScalar d.columns : Result _)
        pure (x, ⟨.output name, b.type t, b.nullable⟩)
      | none => pure (.null, ⟨.output name, .string, true⟩)
    let v ← freshVariable info
    let (d, outputs) ← project (d.assign v x) rest
    return (d, (name, v) :: outputs)

end Draft

namespace BoundTree

/-- The block of a tree that projects given query variables. -/
def plan (t : BoundTree) (projection : List String) : Result Plan := do
  let build : DraftBuilder (Block × List (String × Variable)) := do
    let d ← t.addTo .empty
    let (d, outputs) ← d.project projection
    return (d.toBlock (outputs.map (·.2)), outputs)
  let ((block, outputs), table) ← build.run []
  .ok ⟨block, table, outputs⟩

end BoundTree

end VirtualGraph
