import VirtualGraph.Proofs.Draft.Present
import VirtualGraph.Proofs.Draft.Tests

/-!
# Where terms come from

A row of a block has one text for each query variable. What term the text stands for is told by the
triple that it comes from: the term map of a candidate gives the kind, the datatype and the
language. In a union the triple is one of the branch that the row is numbered with, on the right
side of a left join it is one of a row that was joined, and a value that is bound by an expression
has the kind of the expression.

The construction of a plan is recorded in a survey: where the terms of query variables come from,
and every expression of the tree with the block whose rows it is computed on and what it could see
there. The conditions among the expressions are the tests of the plan.
-/

namespace VirtualGraph

variable {α : Type}

namespace Shape

variable {D : ValueDomain α} {row row' : Row α} {s t : Shape} {x y : Scalar}

/-- The shape of a value says what term it is, out of given ones. -/
def Tells (D : ValueDomain α) (row : Row α) (s : Shape) (x : Scalar)
    (given : α → TermShape → Prop) : Prop :=
  ∃ said, s.Says D row said ∧ ∀ a, x.eval D row = some a → ∃ k, said = some k ∧ given a k

variable {given given' : α → TermShape → Prop}

theorem Tells.mono (h : s.Tells D row x given) (hgiven : ∀ a k, given a k → given' a k) :
    s.Tells D row x given' := by
  obtain ⟨said, hsaid, hvalue⟩ := h
  refine ⟨said, hsaid, fun a ha => ?_⟩
  obtain ⟨k, hk, hak⟩ := hvalue a ha
  exact ⟨k, hk, hgiven a k hak⟩

theorem tells_of_null (hsaid : ∃ said, s.Says D row said) (hx : x.eval D row = none) :
    s.Tells D row x given := by
  obtain ⟨said, hsaid⟩ := hsaid
  exact ⟨said, hsaid, fun a ha => by simp [hx] at ha⟩

theorem tells_known {k : TermShape} (h : ∀ a, x.eval D row = some a → given a k) :
    (known k).Tells D row x given :=
  ⟨some k, .known k, fun a ha => ⟨k, rfl, h a ha⟩⟩

/-- The first of two values that is not null has its own shape, so it has the common one. -/
theorem Tells.coalesce (hx : s.Tells D row x given) (hy : t.Tells D row y given) :
    (s.merge t).Tells D row (.coalesce [x, y]) given := by
  obtain ⟨said, hsaid, hxvalue⟩ := hx
  obtain ⟨said', hsaid', hyvalue⟩ := hy
  cases hxrow : x.eval D row with
  | some a =>
    refine ⟨said, hsaid.merge_left, fun b hb => hxvalue b ?_⟩
    simpa [Scalar.eval, Scalar.evalFirst, hxrow] using hb
  | none =>
    refine ⟨said', hsaid'.merge_right, fun b hb => hyvalue b ?_⟩
    simpa [Scalar.eval, Scalar.evalFirst, hxrow] using hb

end Shape

/-! ### Accounts -/

/-- Which terms the triples of a row give a query variable: their text and shape. -/
abbrev Account (α : Type) := VariableTable → Row α → String → α → TermShape → Prop

/-- One of the terms of a candidate is at the place of a query variable, and is made by a term
map. -/
def Candidate.Gives (D : ValueDomain α) (columns : ColumnIndex) (c : Candidate) (row : Row α)
    (name : String) (a : α) (k : TermShape) : Prop :=
  ∃ p x, c.queryTerm p = .var name ∧ (c.term p).pattern.toScalar columns false = .ok x ∧
    x.eval D row = some a ∧ k = .ofTermMap (c.source p).1 (c.source p).2.2

/-- What term a value of an expression is, given those of query variables. -/
inductive Expression.Gives (D : ValueDomain α) (s : ExpressionScope) (row : Row α)
    (given : String → α → TermShape → Prop) : Expression → α → TermShape → Prop where
  | var {name : String} {a : α} {k : TermShape} (h : given name a k) :
      Gives D s row given (var name) a k
  | constantVar {name : String} {a : α} {k : TermShape} (h : given name a k) :
      Gives D s row given (constant (.var name)) a k
  | constant {t : Term} {k : TermShape} (a : α) (h : TermShape.ofTerm? t = some k) :
      Gives D s row given (constant t) a k
  | str (inner : Expression) (a : α) : Gives D s row given (str inner) a .plainLiteral
  | lang (inner : Expression) (a : α) : Gives D s row given (lang inner) a .plainLiteral
  | concat (items : List Expression) (a : α) : Gives D s row given (concat items) a .plainLiteral
  /-- The value is that of the first member that is not null. -/
  | coalesce {before after : List Expression} {e : Expression} {v : Computed} {a : α}
      {k : TermShape}
      (hbefore : ∀ e' ∈ before, ∃ v', e'.value s = .ok v' ∧ v'.scalar.eval D row = none)
      (hv : e.value s = .ok v) (ha : v.scalar.eval D row = some a) (h : Gives D s row given e a k) :
      Gives D s row given (coalesce (before ++ e :: after)) a k

/-- An expression is bound to a query variable, given the assignments of the block: a binding is
copied, a value that is always null binds nothing, and any other value is assigned. -/
def Expression.Assigned (s : ExpressionScope) (e : Expression) (assignments : List Assignment) :
    Prop :=
  (∃ other b, e = .var other ∧ s.binding? other = some b) ∨
    ∃ v, e.value s = .ok v ∧ (v.scalar = .null ∨ ∃ target, ⟨target, v.scalar⟩ ∈ assignments)

/-- A row of a block, with all its variables, that the filters keep. -/
def Block.Keeps (D : ValueDomain α) (db : Database α) (t : VariableTable) (b : Block)
    (row : Row α) : Prop :=
  row ∈ b.candidateRows D db t ∧ Condition.AllHold D row b.filters

/-- What one of two accounts gives. -/
def Account.or (account other : Account α) : Account α := fun t row name a k =>
  account t row name a k ∨ other t row name a k

/-- The account of a row around a nested block: the row has the values that a row of the block
exposes, which is accounted for. -/
def Account.around (D : ValueDomain α) (db : Database α) (b : Block) (account : Account α) :
    Account α := fun t row name a k =>
  ∃ inner, b.Keeps D db t inner ∧ (∀ v ∈ b.exposed, row v = inner v) ∧ account t inner name a k

/-- The account of the right side of a left join. -/
def Account.joined (D : ValueDomain α) (db : Database α) (s : Source) (account : Account α) :
    Account α := fun t row name a k =>
  ∃ b ∈ s.blocks, account.around D db b t row name a k

/-- The account of a query variable that is bound to an expression, which sees what a scope has. -/
def Account.computed (D : ValueDomain α) (s : ExpressionScope) (name : String) (e : Expression)
    (account : Account α) : Account α := fun t row x a k =>
  x = name ∧ e.Gives D s row (account t row) a k

/-- Where the terms of the query variables of a row come from. -/
inductive Origin where
  | nowhere
  | either (first second : Origin)
  | triple (columns : ColumnIndex) (c : Candidate)
  /-- The row has the number of a branch of a union. -/
  | branch (index : Variable) (n : Nat) (b : Block) (inner : Origin)
  | joined (s : Source) (inner : Origin)
  | computed (s : ExpressionScope) (name : String) (e : Expression) (inner : Origin)

namespace Origin

/-- The terms that come from there, on the rows of a database. -/
def account (D : ValueDomain α) (db : Database α) : Origin → Account α
  | nowhere => fun _ _ _ _ _ => False
  | either first second => (account D db first).or (account D db second)
  | triple columns c => fun _ => c.Gives D columns
  | branch index n b inner => fun t row name a k =>
    row index = some (D.constant (toString n) .integer) ∧
      (account D db inner).around D db b t row name a k
  | joined s inner => (account D db inner).joined D db s
  | computed s name e inner => (account D db inner).computed D s name e

/-- The branches of a union, which are numbered from a given number. -/
def branches (index : Variable) (n : Nat) : List (Origin × Block) → Origin
  | [] => nowhere
  | (inner, b) :: rest => either (branch index n b inner) (branches index (n + 1) rest)

/-- A row that has the number of a branch has the terms that the row has there. -/
theorem account_branches {D : ValueDomain α} {db : Database α} {index : Variable} {n i : Nat}
    {inner : Origin} {b : Block} {members : List (Origin × Block)} {t : VariableTable} {row : Row α}
    {name : String} {a : α} {k : TermShape} (hmember : members[i]? = some (inner, b))
    (h : (branch index (n + i) b inner).account D db t row name a k) :
    (branches index n members).account D db t row name a k := by
  induction members generalizing n i with
  | nil => cases hmember
  | cons member rest ih =>
    cases i with
    | zero =>
      cases hmember
      exact .inl h
    | succ i =>
      refine .inr (ih hmember ?_)
      rwa [Nat.add_right_comm, Nat.add_assoc]

end Origin

/-! ### Surveys -/

/-- An expression of a tree, with the origins of the terms that it can see. It is the condition of a
filter or a left join, or a value that is bound to a query variable. -/
structure Site extends Test where
  origin : Origin
  bound? : Option String

namespace Site

/-- An expression with the query variable that it is bound to, if it is no condition. -/
def use (site : Site) : Expression × Option String := (site.expression, site.bound?)

/-- The conditions of filters and left joins among expressions. -/
def tests (sites : List Site) : List Test := (sites.filter (·.bound?.isNone)).map (·.toTest)

end Site

/-- A draft with the origins of the terms in its rows, and the expressions that were added to it,
given the block that it becomes. -/
structure Survey where
  draft : Draft
  origin : Origin
  sites : Block → List Site

namespace Survey

def empty : Survey := ⟨.empty, .nowhere, fun _ => []⟩

/-- The origins of the branches of a union, each with the block that its draft became. -/
def united (index : Variable) (surveys : List Survey)
    (blocks : List (Draft × List Variable)) : Origin :=
  .branches index 0 (surveys.zipWith (fun r e => (r.origin, e.1.toBlock e.2)) blocks)

end Survey

namespace BoundTree

mutual

/-- Adds the solutions of a tree to a draft, and records where terms come from and what becomes of
expressions. -/
def surveyTo (r : Survey) : BoundTree → DraftBuilder Survey
  | noMatch => return { r with draft := r.draft.addFilter .never }
  | unit => return r
  | triple c => do
    let d ← r.draft.addCandidate c
    return ⟨d, r.origin.either (.triple d.columns c), r.sites⟩
  | join members => surveyAllTo r members
  | union branches => do
    let index ← freshVariable ⟨.derived, .integer, false⟩
    let surveys ← surveyEach branches
    let u ← Draft.unionDraft index (surveys.map (·.draft))
    let d ← Draft.bindAll (r.draft.addSource (u.source index)) u.bindings
    return ⟨d, r.origin.either (Survey.united index surveys u.branches), fun b => r.sites b ++
      (surveys.zip u.branches).flatMap fun e => e.1.sites (e.2.1.toBlock e.2.2)⟩
  | leftJoin left right condition => do
    let l ← surveyTo r left
    let nested ← surveyTo .empty right
    let (s, bindings, scope) ← l.draft.leftJoinSource left.variables nested.draft condition
    let d ← Draft.bindOptional left.variables (l.draft.addSource s) bindings
    let origin := l.origin.either (.joined s nested.origin)
    return ⟨d, origin, fun b => l.sites b ++ (s.blocks.flatMap nested.sites ++
      condition.toList.map fun e => ⟨⟨b, e, scope, some s⟩, origin, none⟩)⟩
  | filter condition inner => do
    let r ← surveyTo r inner
    let t ← get
    let d ← r.draft.restrict inner.variables condition
    return ⟨d, r.origin, fun b => r.sites b ++
      [⟨⟨b, condition, r.draft.scope t inner.variables, none⟩, r.origin, none⟩]⟩
  | extend inner name value => do
    let r ← surveyTo r inner
    let t ← get
    let d ← r.draft.extend inner.variables name value
    let scope := r.draft.scope t inner.variables
    return ⟨d, r.origin.either (.computed scope name value r.origin),
      fun b => r.sites b ++ [⟨⟨b, value, scope, none⟩, r.origin, some name⟩]⟩
termination_by structural x => x

def surveyAllTo (r : Survey) : List BoundTree → DraftBuilder Survey
  | [] => return r
  | t :: rest => do
    let r ← surveyTo r t
    surveyAllTo r rest
termination_by structural x => x

def surveyEach : List BoundTree → DraftBuilder (List Survey)
  | [] => return []
  | t :: rest => do
    let r ← surveyTo .empty t
    let rs ← surveyEach rest
    return r :: rs
termination_by structural x => x

end

/-- The block of a tree that projects given query variables, with its expressions. -/
def survey (t : BoundTree) (projection : List String) : Result (Plan × List Site) := do
  let build : DraftBuilder (Block × List (String × Variable) × List Site) := do
    let r ← t.surveyTo .empty
    let (d, outputs) ← r.draft.project projection
    let block := d.toBlock (outputs.map (·.2))
    return (block, outputs, r.sites block)
  let ((block, outputs, sites), table) ← build.run []
  .ok (⟨block, table, outputs⟩, sites)

/-- The block of a tree that projects given query variables, with its tests. -/
def trace (t : BoundTree) (projection : List String) : Result (Plan × List Test) := do
  let (p, sites) ← t.survey projection
  return (p, Site.tests sites)

mutual

/-- Recording changes nothing about the draft. -/
theorem map_draft_surveyTo : ∀ (tree : BoundTree) (r : Survey),
    Survey.draft <$> tree.surveyTo r = tree.addTo r.draft
  | noMatch, _ => by rw [surveyTo, addTo, map_pure]
  | unit, _ => by rw [surveyTo, addTo, map_pure]
  | triple c, r => by
    rw [surveyTo, addTo]
    simp only [map_bind, map_pure, bind_pure]
  | join members, r => by
    rw [surveyTo, addTo, map_draft_surveyAllTo members r]
  | union branches, r => by
    rw [surveyTo, addTo, ← map_draft_surveyEach branches]
    simp only [map_bind, map_pure, bind_pure, bind_map_left, Draft.addUnion_eq]
  | leftJoin left right condition, r => by
    rw [surveyTo, addTo, ← map_draft_surveyTo left r,
      show Draft.empty = Survey.empty.draft from rfl, ← map_draft_surveyTo right .empty]
    simp only [map_bind, map_pure, bind_pure, bind_map_left, Draft.addLeftJoin_eq]
  | filter condition inner, r => by
    rw [surveyTo, addTo, ← map_draft_surveyTo inner r]
    simp only [map_bind, map_pure, bind_pure, bind_map_left]
    rfl
  | extend inner name value, r => by
    rw [surveyTo, addTo, ← map_draft_surveyTo inner r]
    simp only [map_bind, map_pure, bind_pure, bind_map_left]
    rfl

theorem map_draft_surveyAllTo : ∀ (trees : List BoundTree) (r : Survey),
    Survey.draft <$> surveyAllTo r trees = addAllTo r.draft trees
  | [], _ => by rw [surveyAllTo, addAllTo, map_pure]
  | t :: rest, r => by
    rw [surveyAllTo, addAllTo, ← map_draft_surveyTo t r]
    simp only [map_bind, bind_map_left]
    exact bind_congr fun r' => map_draft_surveyAllTo rest r'

theorem map_draft_surveyEach : ∀ trees : List BoundTree,
    List.map Survey.draft <$> surveyEach trees = draftEach trees
  | [] => by rw [surveyEach, draftEach, map_pure, List.map_nil]
  | t :: rest => by
    rw [surveyEach, draftEach, ← map_draft_surveyEach rest,
      show Draft.empty = Survey.empty.draft from rfl, ← map_draft_surveyTo t .empty]
    simp only [map_bind, map_pure, bind_map_left, List.map_cons]

end

/-- A plan is the first half of its survey. -/
theorem map_fst_survey (t : BoundTree) (projection : List String) :
    Prod.fst <$> t.survey projection = t.plan projection := by
  unfold survey plan
  rw [show Draft.empty = Survey.empty.draft from rfl, ← map_draft_surveyTo t .empty]
  simp only [StateT.run_bind, StateT.run_pure, map_bind, bind_map_left, bind_assoc, pure_bind]
  rfl

mutual

/-- The expressions of a tree, each with the query variable that it is bound to, if it is no
condition. -/
def uses : BoundTree → List (Expression × Option String)
  | noMatch => []
  | unit => []
  | triple _ => []
  | join members => usesAll members
  | union branches => usesAll branches
  | leftJoin left right condition =>
    uses left ++ (uses right ++ condition.toList.map fun e => (e, none))
  | filter condition inner => uses inner ++ [(condition, none)]
  | extend inner name value => uses inner ++ [(value, some name)]
termination_by structural x => x

def usesAll : List BoundTree → List (Expression × Option String)
  | [] => []
  | t :: rest => uses t ++ usesAll rest
termination_by structural x => x

end

/-- The expressions of filters and left joins, and those that are bound to query variables. -/
def expressions (t : BoundTree) : List Expression := t.uses.map (·.1)

/-- The expressions of filters and left joins. -/
def conditions (t : BoundTree) : List Expression := (t.uses.filter (·.2.isNone)).map (·.1)

end BoundTree

end VirtualGraph
