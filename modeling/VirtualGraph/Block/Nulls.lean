import VirtualGraph.Block.Basic

/-!
# Null facts

Which variables are sure to have a value, and which are sure to be null, on the rows of a block. The
facts of sources and assignments decide null checks in the conditions of the block.
-/

namespace VirtualGraph

/-- Variables that are never null, and variables that are always null. -/
structure NullFacts where
  nonNull : List Variable
  null : List Variable
  deriving DecidableEq

/-- Inserts a number into a list in increasing order without repetition. -/
def insertVariable (v : Variable) : List Variable → List Variable
  | [] => [v]
  | w :: rest =>
    if v = w then w :: rest else if v < w then v :: w :: rest else w :: insertVariable v rest

/-- The distinct variables of a list in increasing order. -/
def sortVariables (vs : List Variable) : List Variable := vs.foldr insertVariable []

namespace NullFacts

def empty : NullFacts := ⟨[], []⟩

def isNonNull (f : NullFacts) (v : Variable) : Bool := f.nonNull.contains v

def isNull (f : NullFacts) (v : Variable) : Bool := f.null.contains v

/-- The facts where both hold. -/
def and (f g : NullFacts) : NullFacts := ⟨f.nonNull ++ g.nonNull, f.null ++ g.null⟩

/-- The facts where either holds. -/
def or (f g : NullFacts) : NullFacts :=
  ⟨f.nonNull.filter g.nonNull.contains, f.null.filter g.null.contains⟩

/-- The facts where all hold. -/
def all (fs : List NullFacts) : NullFacts := fs.foldl and empty

/-- The facts where at least one holds; none if there is nothing to choose from. -/
def any : List NullFacts → NullFacts
  | [] => empty
  | f :: fs => fs.foldl or f

/-- The facts about given variables. -/
def restrict (f : NullFacts) (vs : List Variable) : NullFacts :=
  ⟨f.nonNull.filter vs.contains, f.null.filter vs.contains⟩

/-- The facts with each variable once, in increasing order. -/
def sorted (f : NullFacts) : NullFacts := ⟨sortVariables f.nonNull, sortVariables f.null⟩

end NullFacts

/-- What is known about one value. -/
inductive Nullness where
  | nonNull
  | null
  | unknown
  deriving DecidableEq

namespace Nullness

/-- A concatenation is null if one part is. -/
def ofConcat (parts : List Nullness) : Nullness :=
  if parts.contains null then null
  else if parts.all (· = nonNull) then nonNull
  else unknown

/-- The first value that is not null is null only if all are. -/
def ofCoalesce (parts : List Nullness) : Nullness :=
  if parts.contains nonNull then nonNull
  else if parts.all (· = null) then null
  else unknown

/-- One of several values is known only as far as all of them are alike. -/
def ofChoice (otherwise : Nullness) (parts : List Nullness) : Nullness :=
  if parts.all (· = otherwise) then otherwise else unknown

end Nullness

namespace Scalar

mutual

/-- What facts say about a scalar. -/
def nullness (f : NullFacts) : Scalar → Nullness
  | column v => if f.isNonNull v then .nonNull else if f.isNull v then .null else .unknown
  | constant _ _ => .nonNull
  | null => .null
  | concat items => .ofConcat (nullnessEach f items)
  | coalesce items => .ofCoalesce (nullnessEach f items)
  | case branches otherwise => .ofChoice (nullness f otherwise) (nullnessBranches f branches)
termination_by structural x => x

def nullnessEach (f : NullFacts) : List Scalar → List Nullness
  | [] => []
  | x :: rest => nullness f x :: nullnessEach f rest
termination_by structural x => x

def nullnessBranches (f : NullFacts) : List (Condition × Scalar) → List Nullness
  | [] => []
  | (_, x) :: rest => nullness f x :: nullnessBranches f rest
termination_by structural x => x

end

mutual

/-- The variables whose null makes the scalar null. -/
def strictVariables : Scalar → List Variable
  | column v => [v]
  | constant _ _ => []
  | null => []
  | concat items => strictVariablesAll items
  | coalesce _ => []
  | case _ _ => []
termination_by structural x => x

def strictVariablesAll : List Scalar → List Variable
  | [] => []
  | x :: rest => strictVariables x ++ strictVariablesAll rest
termination_by structural x => x

end

end Scalar

namespace Condition

mutual

/-- The facts on the rows where a condition has the truth value `value`. Where it is unknown nothing
is said. -/
def facts (value : Bool) : Condition → NullFacts
  | always => .empty
  | never => .empty
  | and items => if value then .all (factsEach value items) else .any (factsEach value items)
  | or items => if value then .any (factsEach value items) else .all (factsEach value items)
  | not inner => facts (!value) inner
  | isNull v => if value then ⟨[], [v]⟩ else ⟨[v], []⟩
  | compare _ l r => ⟨l.strictVariables ++ r.strictVariables, []⟩
  | sameValue l r => ⟨l.strictVariables ++ r.strictVariables, []⟩
  | sameVariable a b => ⟨[a, b], []⟩
  | langMatches x _ => ⟨x.strictVariables, []⟩
  | like x _ => ⟨x.strictVariables, []⟩
termination_by structural x => x

def factsEach (value : Bool) : List Condition → List NullFacts
  | [] => []
  | c :: rest => facts value c :: factsEach value rest
termination_by structural x => x

end

mutual

/-- Decides the null checks that facts decide, and counts them. -/
def resolveNulls (f : NullFacts) : Condition → Condition × Nat
  | and items =>
    let (items, n) := resolveNullsEach f items
    (and items, n)
  | or items =>
    let (items, n) := resolveNullsEach f items
    (or items, n)
  | not inner =>
    let (inner, n) := resolveNulls f inner
    (not inner, n)
  | isNull v =>
    if f.isNonNull v then (never, 1) else if f.isNull v then (always, 1) else (isNull v, 0)
  | always => (always, 0)
  | never => (never, 0)
  | compare op l r => (compare op l r, 0)
  | sameVariable a b => (sameVariable a b, 0)
  | sameValue l r => (sameValue l r, 0)
  | langMatches x range => (langMatches x range, 0)
  | like x pattern => (like x pattern, 0)
termination_by structural x => x

def resolveNullsEach (f : NullFacts) : List Condition → List Condition × Nat
  | [] => ([], 0)
  | c :: rest =>
    let (c, n) := resolveNulls f c
    let (cs, k) := resolveNullsEach f rest
    (c :: cs, n + k)
termination_by structural x => x

end

end Condition

namespace Scalar

mutual

/-- Decides null checks in the conditions of the cases in a scalar. -/
def resolveNulls (f : NullFacts) : Scalar → Scalar × Nat
  | column v => (column v, 0)
  | constant text type => (constant text type, 0)
  | null => (null, 0)
  | concat items =>
    let (items, n) := resolveNullsEach f items
    (concat items, n)
  | coalesce items =>
    let (items, n) := resolveNullsEach f items
    (coalesce items, n)
  | case branches otherwise =>
    let (branches, n) := resolveNullsBranches f branches
    let (otherwise, k) := resolveNulls f otherwise
    (case branches otherwise, n + k)
termination_by structural x => x

def resolveNullsEach (f : NullFacts) : List Scalar → List Scalar × Nat
  | [] => ([], 0)
  | x :: rest =>
    let (x, n) := resolveNulls f x
    let (xs, k) := resolveNullsEach f rest
    (x :: xs, n + k)
termination_by structural x => x

def resolveNullsBranches (f : NullFacts) :
    List (Condition × Scalar) → List (Condition × Scalar) × Nat
  | [] => ([], 0)
  | (c, x) :: rest =>
    let (c, m) := c.resolveNulls f
    let (x, n) := resolveNulls f x
    let (xs, k) := resolveNullsBranches f rest
    ((c, x) :: xs, m + n + k)
termination_by structural x => x

end

end Scalar

namespace Assignment

/-- The facts after an assignment. -/
def addFacts (f : NullFacts) (a : Assignment) : NullFacts :=
  match a.value.nullness f with
  | .nonNull => ⟨a.target :: f.nonNull, f.null⟩
  | .null => ⟨f.nonNull, a.target :: f.null⟩
  | .unknown => f

/-- Decides null checks in assignments. -/
def resolveNullsEach (f : NullFacts) : List Assignment → List Assignment × Nat
  | [] => ([], 0)
  | a :: rest =>
    let (value, n) := a.value.resolveNulls f
    let (assignments, k) := resolveNullsEach f rest
    (⟨a.target, value⟩ :: assignments, n + k)

end Assignment

/-- The columns of a table that are declared to have a value. -/
def VariableTable.nonNullColumns (t : VariableTable) (vs : List Variable) : List Variable :=
  vs.filter fun v =>
    match t.info v with
    | ⟨.column _, _, false⟩ => true
    | _ => false

mutual

/-- The facts on the rows that a block exposes. -/
def Block.exposedFacts (t : VariableTable) : Block → NullFacts
  | ⟨exposed, sources, assignments, filters⟩ =>
    let rows := assignments.foldl Assignment.addFacts (Source.factsAll t sources)
    (rows.and (.all (Condition.factsEach true filters))).restrict exposed
termination_by structural x => x

/-- The facts on the rows that the branches of a union contribute. -/
def Block.branchFacts (t : VariableTable) (vars : List Variable) :
    List Block → List NullFacts
  | [] => []
  | b :: rest =>
    let padded := vars.filter (!b.exposed.contains ·)
    (Block.exposedFacts t b).and ⟨[], padded⟩ :: Block.branchFacts t vars rest
termination_by structural x => x

/-- The facts on the rows of a source. -/
def Source.facts (t : VariableTable) : Source → NullFacts
  | .table _ vars => ⟨t.nonNullColumns vars, []⟩
  | .nested block vars => (Block.exposedFacts t block).restrict vars
  | .union index branches vars =>
    let f := (NullFacts.any (Block.branchFacts t vars branches)).restrict vars
    ⟨index :: f.nonNull, f.null⟩
  | .leftJoin block _ vars => ⟨[], ((Block.exposedFacts t block).restrict vars).null⟩
termination_by structural x => x

/-- The facts on the rows of all sources. -/
def Source.factsAll (t : VariableTable) : List Source → NullFacts
  | [] => .empty
  | s :: rest => (Source.facts t s).and (Source.factsAll t rest)
termination_by structural x => x

end

/-- The facts that the sources and assignments of a block establish. -/
def Block.facts (t : VariableTable) (b : Block) : NullFacts :=
  b.assignments.foldl Assignment.addFacts (Source.factsAll t b.sources)

mutual

/-- Decides null checks in the conditions of a block and of the blocks in it. -/
def Block.resolveNulls (t : VariableTable) : Block → Block × Nat
  | ⟨exposed, sources, assignments, filters⟩ =>
    let f := Block.facts t ⟨exposed, sources, assignments, filters⟩
    let (sources, m) := Source.resolveNullsEach t f sources
    let (assignments, n) := Assignment.resolveNullsEach f assignments
    let (filters, k) := Condition.resolveNullsEach f filters
    (⟨exposed, sources, assignments, filters⟩, m + n + k)
termination_by structural x => x

def Block.resolveNullsEach (t : VariableTable) : List Block → List Block × Nat
  | [] => ([], 0)
  | b :: rest =>
    let (b, n) := Block.resolveNulls t b
    let (bs, k) := Block.resolveNullsEach t rest
    (b :: bs, n + k)
termination_by structural x => x

/-- Decides null checks in a source of a block with given facts. The conditions of a left join are
tested only on rows of the nested block, so its facts hold there too. -/
def Source.resolveNulls (t : VariableTable) (outer : NullFacts) : Source → Source × Nat
  | .table source vars => (.table source vars, 0)
  | .nested block vars =>
    let (block, n) := Block.resolveNulls t block
    (.nested block vars, n)
  | .union index branches vars =>
    let (branches, n) := Block.resolveNullsEach t branches
    (.union index branches vars, n)
  | .leftJoin block on vars =>
    let (block, n) := Block.resolveNulls t block
    let inner := (block.exposedFacts t).restrict vars
    let (on, k) := Condition.resolveNullsEach (outer.and inner) on
    (.leftJoin block on vars, n + k)
termination_by structural x => x

def Source.resolveNullsEach (t : VariableTable) (outer : NullFacts) :
    List Source → List Source × Nat
  | [] => ([], 0)
  | s :: rest =>
    let (s, n) := Source.resolveNulls t outer s
    let (ss, k) := Source.resolveNullsEach t outer rest
    (s :: ss, n + k)
termination_by structural x => x

end

end VirtualGraph
