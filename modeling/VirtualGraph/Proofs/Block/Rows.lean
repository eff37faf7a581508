import Mathlib.Data.Multiset.Bind
import VirtualGraph.Proofs.Block.Scope
import VirtualGraph.Proofs.Block.Truth

/-!
# Rows of blocks

What a block means over a database: a bag of rows. Values may be anything that has constants,
concatenation and a comparison; a null is the absence of a value and makes every test of it unknown.

The cross-joined sources of a block are combined first and its left joins after them, in order. The
conditions of a left join may therefore read every source but a later left join, and the assignments
of the block, which are computed on the row under test. Where they depend on earlier sources only,
this is joining all sources in order. A row of the block is kept when all filters are true on it,
and of a kept row only the exposed variables remain.
-/

namespace VirtualGraph

variable {α : Type}

/-- What is computed from values. -/
structure ValueDomain (α : Type) where
  constant : String → SqlType → α
  concat : List α → α
  order : α → α → Ordering
  langMatches : α → String → Bool
  like : α → String → Bool

/-- The rows of every table, each with a value or a null for every column. -/
abbrev Database (α : Type) := TableSource → Multiset (String → Option α)

/-- The values of variables; a variable that is not bound is null. -/
abbrev Row (α : Type) := Variable → Option α

namespace Comparator

/-- Whether the operator holds of two values in a given order. -/
def holds : Comparator → Ordering → Bool
  | eq, o => o.isEq
  | ne, o => o.isNe
  | lt, o => o.isLT
  | le, o => o.isLE
  | gt, o => o.isGT
  | ge, o => o.isGE

@[simp] theorem holds_negate (op : Comparator) (o : Ordering) :
    op.negate.holds o = !op.holds o := by
  cases op <;> cases o <;> rfl

end Comparator

namespace Row

def null : Row α := fun _ => none

/-- The row with the values of some variables taken from another row. -/
def take (row : Row α) (vs : List Variable) (other : Row α) : Row α :=
  fun v => if v ∈ vs then other v else row v

/-- The row with a value for one variable. -/
def assign (row : Row α) (target : Variable) (value : Option α) : Row α :=
  fun v => if v = target then value else row v

/-- The values of some variables, the others null. -/
def restrict (row : Row α) (vs : List Variable) : Row α := null.take vs row

variable {row other : Row α} {vs : List Variable} {v target : Variable} {value : Option α}

@[simp] theorem null_apply (v : Variable) : (null : Row α) v = none := rfl

@[simp] theorem take_of_mem (h : v ∈ vs) : row.take vs other v = other v := if_pos h

@[simp] theorem take_of_not_mem (h : v ∉ vs) : row.take vs other v = row v := if_neg h

@[simp] theorem assign_self : row.assign target value target = value := if_pos rfl

@[simp] theorem assign_of_ne (h : v ≠ target) : row.assign target value v = row v := if_neg h

@[simp] theorem restrict_of_mem (h : v ∈ vs) : row.restrict vs v = row v := take_of_mem h

end Row

mutual

/-- The value of a scalar on a row. -/
def Scalar.eval (D : ValueDomain α) (row : Row α) : Scalar → Option α
  | .column v => row v
  | .constant text type => some (D.constant text type)
  | .null => none
  | .concat items => (Scalar.evalAll D row items).map D.concat
  | .coalesce items => Scalar.evalFirst D row items
  | .case branches otherwise =>
    (Scalar.evalBranch D row branches).getD (Scalar.eval D row otherwise)
termination_by structural x => x

/-- The values of scalars, unless one of them is null. -/
def Scalar.evalAll (D : ValueDomain α) (row : Row α) : List Scalar → Option (List α)
  | [] => some []
  | x :: rest =>
    match Scalar.eval D row x, Scalar.evalAll D row rest with
    | some a, some as => some (a :: as)
    | _, _ => none
termination_by structural x => x

/-- The first value that is not null. -/
def Scalar.evalFirst (D : ValueDomain α) (row : Row α) : List Scalar → Option α
  | [] => none
  | x :: rest => (Scalar.eval D row x).or (Scalar.evalFirst D row rest)
termination_by structural x => x

/-- The value of the first branch whose condition is true. -/
def Scalar.evalBranch (D : ValueDomain α) (row : Row α) :
    List (Condition × Scalar) → Option (Option α)
  | [] => none
  | (c, x) :: rest =>
    if Condition.eval D row c = .yes then some (Scalar.eval D row x)
    else Scalar.evalBranch D row rest
termination_by structural x => x

/-- The truth value of a condition on a row. -/
def Condition.eval (D : ValueDomain α) (row : Row α) : Condition → Truth
  | .always => .yes
  | .never => .no
  | .and items => .all (Condition.evalEach D row items)
  | .or items => .any (Condition.evalEach D row items)
  | .not inner => (Condition.eval D row inner).not
  | .compare op l r =>
    match Scalar.eval D row l, Scalar.eval D row r with
    | some a, some b => .ofBool (op.holds (D.order a b))
    | _, _ => .unknown
  | .sameVariable v w =>
    match row v, row w with
    | some a, some b => .ofBool (D.order a b).isEq
    | _, _ => .unknown
  | .sameValue l r =>
    match Scalar.eval D row l, Scalar.eval D row r with
    | some a, some b => .ofBool (D.order a b).isEq
    | _, _ => .unknown
  | .isNull v => .ofBool (row v).isNone
  | .langMatches x range =>
    match Scalar.eval D row x with
    | some a => .ofBool (D.langMatches a range)
    | none => .unknown
  | .like x pattern =>
    match Scalar.eval D row x with
    | some a => .ofBool (D.like a pattern)
    | none => .unknown
termination_by structural x => x

def Condition.evalEach (D : ValueDomain α) (row : Row α) : List Condition → List Truth
  | [] => []
  | c :: rest => Condition.eval D row c :: Condition.evalEach D row rest
termination_by structural x => x

end

namespace Condition

/-- All conditions are true on a row. -/
def AllHold (D : ValueDomain α) (row : Row α) (cs : List Condition) : Prop :=
  ∀ c ∈ cs, c.eval D row = .yes

instance (D : ValueDomain α) (row : Row α) (cs : List Condition) :
    Decidable (AllHold D row cs) :=
  inferInstanceAs (Decidable (∀ c ∈ cs, c.eval D row = .yes))

theorem eval_notNull {D : ValueDomain α} {row : Row α} {v : Variable} :
    (notNull v).eval D row = .yes ↔ row v ≠ none := by
  cases h : row v <;> simp [notNull, eval, h, Truth.ofBool, Truth.not]

end Condition

namespace Assignment

/-- Computes assignments in order. -/
def run (D : ValueDomain α) : List Assignment → Row α → Row α
  | [], row => row
  | a :: rest, row => run D rest (row.assign a.target (a.value.eval D row))

variable {D : ValueDomain α} {as : List Assignment} {row : Row α} {v : Variable}

theorem run_of_not_mem (h : v ∉ as.map (·.target)) : run D as row v = row v := by
  induction as generalizing row with
  | nil => rfl
  | cons a as ih =>
    rw [List.map_cons, List.mem_cons, not_or] at h
    rw [run, ih h.2, Row.assign_of_ne h.1]

theorem Scoped.run_eq {scope : List Variable} (h : Scoped scope as) (hv : v ∈ scope) :
    run D as row v = row v :=
  run_of_not_mem (h.not_mem_targets hv)

end Assignment

namespace Source

/-- The extensions of a row by the rows of a source that is cross-joined. -/
def cross (row : Row α) (s : Source × Multiset (Row α)) : Multiset (Row α) :=
  match s.1.on? with
  | some _ => {row}
  | none => s.2.map (row.take s.1.produced)

/-- The extensions of a row by the rows of a source that meet conditions. -/
def matching (D : ValueDomain α) (assignments : List Assignment) (on : List Condition)
    (row : Row α) (s : Source × Multiset (Row α)) : Multiset (Row α) :=
  (s.2.map (row.take s.1.produced)).filter fun joined =>
    Condition.AllHold D (Assignment.run D assignments joined) on

/-- The extensions of a row by a left join: those that meet its conditions, or one by nulls. -/
def outer (D : ValueDomain α) (assignments : List Assignment) (row : Row α)
    (s : Source × Multiset (Row α)) : Multiset (Row α) :=
  match s.1.on? with
  | some on =>
    if (matching D assignments on row s).card = 0 then {row.take s.1.produced Row.null}
    else matching D assignments on row s
  | none => {row}

/-- Extends a row by sources in order. -/
def joinAll (join : Row α → Source × Multiset (Row α) → Multiset (Row α)) :
    List (Source × Multiset (Row α)) → Row α → Multiset (Row α)
  | [], row => {row}
  | s :: rest, row => (join row s).bind (joinAll join rest)

/-- The rows of all sources of a block together. -/
def combine (D : ValueDomain α) (assignments : List Assignment)
    (sources : List (Source × Multiset (Row α))) : Multiset (Row α) :=
  (joinAll cross sources Row.null).bind (joinAll (outer D assignments) sources)

/-- The variables of a source are as in one of its rows. -/
def Matched (row : Row α) (s : Source × Multiset (Row α)) : Prop :=
  ∃ r ∈ s.2, ∀ v ∈ s.1.produced, row v = r v

/-- The variables of a source are as in one of its rows, or all null if it is a left join. -/
def Fits (row : Row α) (s : Source × Multiset (Row α)) : Prop :=
  Matched row s ∨ s.1.on?.isSome ∧ ∀ v ∈ s.1.produced, row v = none

/-- Different sources bind different variables. -/
def Separate (sources : List (Source × Multiset (Row α))) : Prop :=
  sources.Pairwise fun s r => List.Disjoint s.1.produced r.1.produced

section

variable {D : ValueDomain α} {assignments : List Assignment} {row row' : Row α} {v : Variable}
  {s r : Source × Multiset (Row α)} {sources : List (Source × Multiset (Row α))}
  {join : Row α → Source × Multiset (Row α) → Multiset (Row α)}

theorem mem_cross (h : row' ∈ cross row s) : s.1.on?.isSome ∧ row' = row ∨
    s.1.on? = none ∧ ∃ r ∈ s.2, row' = row.take s.1.produced r := by
  rw [cross] at h
  cases hon : s.1.on? with
  | some on =>
    rw [hon] at h
    exact .inl ⟨rfl, Multiset.mem_singleton.mp h⟩
  | none =>
    rw [hon] at h
    obtain ⟨r, hr, heq⟩ := Multiset.mem_map.mp h
    exact .inr ⟨rfl, r, hr, heq.symm⟩

theorem mem_outer (h : row' ∈ outer D assignments row s) : row' = row ∨ s.1.on?.isSome ∧
    ((∃ r ∈ s.2, row' = row.take s.1.produced r) ∨ row' = row.take s.1.produced Row.null) := by
  rw [outer] at h
  cases hon : s.1.on? with
  | none =>
    rw [hon] at h
    exact .inl (Multiset.mem_singleton.mp h)
  | some on =>
    simp only [hon] at h
    refine .inr ⟨rfl, ?_⟩
    split at h
    · exact .inr (Multiset.mem_singleton.mp h)
    · obtain ⟨r, hr, heq⟩ := Multiset.mem_map.mp (Multiset.mem_filter.mp h).1
      exact .inl ⟨r, hr, heq.symm⟩

theorem mem_joinAll_cons : row' ∈ joinAll join (s :: sources) row ↔
    ∃ mid ∈ join row s, row' ∈ joinAll join sources mid :=
  Multiset.mem_bind

/-- What each step keeps, joining all sources keeps. -/
theorem joinAll_invariant {P : Row α → Prop}
    (hstep : ∀ s ∈ sources, ∀ row, P row → ∀ row' ∈ join row s, P row') (h : P row) :
    ∀ row' ∈ joinAll join sources row, P row' := by
  induction sources generalizing row with
  | nil =>
    intro row' hrow'
    rwa [Multiset.mem_singleton.mp hrow']
  | cons s sources ih =>
    intro row' hrow'
    obtain ⟨hs, hrest⟩ := List.forall_mem_cons.mp hstep
    obtain ⟨mid, hmid, hrow'⟩ := mem_joinAll_cons.mp hrow'
    exact ih hrest (hs row h mid hmid) row' hrow'

theorem eq_of_mem_cross (hv : ∀ s ∈ sources, s.1.on? = none → v ∉ s.1.produced) :
    ∀ row' ∈ joinAll cross sources row, row' v = row v := by
  refine joinAll_invariant (P := fun row' => row' v = row v) ?_ rfl
  intro s hs mid hmid row' hrow'
  obtain ⟨-, rfl⟩ | ⟨hon, r, -, rfl⟩ := mem_cross hrow'
  · exact hmid
  · rw [Row.take_of_not_mem (hv s hs hon), hmid]

theorem matched_of_mem_cross (hsep : Separate sources) (h : row' ∈ joinAll cross sources row) :
    ∀ s ∈ sources, s.1.on? = none → Matched row' s := by
  induction sources generalizing row with
  | nil => exact fun _ hs => absurd hs List.not_mem_nil
  | cons s sources ih =>
    obtain ⟨hdisjoint, hsep⟩ := List.pairwise_cons.mp hsep
    obtain ⟨mid, hmid, h⟩ := mem_joinAll_cons.mp h
    refine List.forall_mem_cons.mpr ⟨fun hon => ?_, ih hsep h⟩
    obtain ⟨hsome, -⟩ | ⟨-, r, hr, rfl⟩ := mem_cross hmid
    · simp [hon] at hsome
    · refine ⟨r, hr, fun v hv => ?_⟩
      rw [eq_of_mem_cross (fun r hr _ hvr => hdisjoint r hr hv hvr) _ h, Row.take_of_mem hv]

theorem Separate.disjoint (hsep : Separate sources) (hs : s ∈ sources) (hr : r ∈ sources)
    (hne : s ≠ r) : List.Disjoint s.1.produced r.1.produced :=
  have : Std.Symm fun s r : Source × Multiset (Row α) =>
    List.Disjoint s.1.produced r.1.produced := ⟨fun _ _ => List.Disjoint.symm⟩
  List.Pairwise.forall hsep hs hr hne

theorem fits_of_mem_cross (hsep : Separate sources)
    (h : row ∈ joinAll cross sources Row.null) : ∀ s ∈ sources, Fits row s := by
  intro s hs
  cases hon : s.1.on? with
  | none => exact .inl (matched_of_mem_cross hsep h s hs hon)
  | some on =>
    refine .inr ⟨by simp [hon], fun v hv => ?_⟩
    refine (eq_of_mem_cross (fun r hr hron hvr => ?_) row h).trans rfl
    have hne : s ≠ r := by
      rintro rfl
      simp [hon] at hron
    exact hsep.disjoint hs hr hne hv hvr

theorem fits_take {other : Row α} (hsep : Separate sources) (hfits : ∀ s ∈ sources, Fits row s)
    (hs : s ∈ sources) (hnew : Fits (row.take s.1.produced other) s) :
    ∀ r ∈ sources, Fits (row.take s.1.produced other) r := by
  intro r hr
  by_cases hne : s = r
  · exact hne ▸ hnew
  · have heq : ∀ v ∈ r.1.produced, row.take s.1.produced other v = row v := fun v hv =>
      Row.take_of_not_mem fun hvs => hsep.disjoint hs hr hne hvs hv
    obtain ⟨q, hq, hmatch⟩ | ⟨hon, hnull⟩ := hfits r hr
    · exact .inl ⟨q, hq, fun v hv => (heq v hv).trans (hmatch v hv)⟩
    · exact .inr ⟨hon, fun v hv => (heq v hv).trans (hnull v hv)⟩

theorem matched_take {other : Row α} (h : other ∈ s.2) :
    Matched (row.take s.1.produced other) s :=
  ⟨other, h, fun _ hv => Row.take_of_mem hv⟩

theorem fits_of_mem_outer (hsep : Separate sources) (hfits : ∀ s ∈ sources, Fits row s)
    (hs : s ∈ sources) (h : row' ∈ outer D assignments row s) : ∀ s ∈ sources, Fits row' s := by
  obtain rfl | ⟨hon, ⟨r, hr, rfl⟩ | rfl⟩ := mem_outer h
  · exact hfits
  · exact fits_take hsep hfits hs (.inl (matched_take hr))
  · exact fits_take hsep hfits hs (.inr ⟨hon, fun v hv => Row.take_of_mem hv⟩)

/-- The rows of all sources together fit each of them. -/
theorem fits_of_mem_combine (hsep : Separate sources)
    (h : row ∈ combine D assignments sources) : ∀ s ∈ sources, Fits row s := by
  obtain ⟨mid, hmid, h⟩ := Multiset.mem_bind.mp h
  refine joinAll_invariant (P := fun row => ∀ s ∈ sources, Fits row s) ?_
    (fits_of_mem_cross hsep hmid) row h
  exact fun s hs row hfits row' hrow' => fits_of_mem_outer hsep hfits hs hrow'

end

end Source

namespace VariableTable

/-- The columns of a table row as values of variables. -/
def row (t : VariableTable) (columns : String → Option α) : Row α := fun v =>
  match (t.info v).kind with
  | .column name => columns name
  | _ => none

end VariableTable

namespace Block

/-- Of combined rows, those that pass the filters, with the exposed variables only. -/
def select (D : ValueDomain α) (exposed : List Variable) (filters : List Condition)
    (rows : Multiset (Row α)) : Multiset (Row α) :=
  (rows.filter fun row => Condition.AllHold D row filters).map (·.restrict exposed)

mutual

/-- The rows that a block exposes. -/
def rows (D : ValueDomain α) (db : Database α) (t : VariableTable) : Block → Multiset (Row α)
  | ⟨exposed, sources, assignments, filters⟩ =>
    select D exposed filters
      ((Source.combine D assignments (sourceRowsEach D db t sources)).map
        (Assignment.run D assignments))
termination_by structural x => x

/-- The rows of the branches of a union, numbered from `n`. -/
def branchRows (D : ValueDomain α) (db : Database α) (t : VariableTable) (index : Variable)
    (n : Nat) : List Block → Multiset (Row α)
  | [] => 0
  | b :: rest =>
    (rows D db t b).map (·.assign index (some (D.constant (toString n) .integer)))
      + branchRows D db t index (n + 1) rest
termination_by structural x => x

/-- The rows of a source by itself. -/
def sourceRows (D : ValueDomain α) (db : Database α) (t : VariableTable) :
    Source → Multiset (Row α)
  | .table source _ => (db source).map t.row
  | .nested block _ => rows D db t block
  | .union index branches _ => branchRows D db t index 0 branches
  | .leftJoin block _ _ => rows D db t block
termination_by structural x => x

/-- Each source with its rows. -/
def sourceRowsEach (D : ValueDomain α) (db : Database α) (t : VariableTable) :
    List Source → List (Source × Multiset (Row α))
  | [] => []
  | s :: rest => (s, sourceRows D db t s) :: sourceRowsEach D db t rest
termination_by structural x => x

end

theorem sourceRowsEach_eq_map (D : ValueDomain α) (db : Database α) (t : VariableTable)
    (sources : List Source) :
    sourceRowsEach D db t sources = sources.map fun s => (s, sourceRows D db t s) := by
  induction sources with
  | nil => rfl
  | cons s rest ih => rw [sourceRowsEach, ih, List.map_cons]

theorem Apart.separate {b : Block} (h : b.Apart) (D : ValueDomain α) (db : Database α)
    (t : VariableTable) : Source.Separate (b.sources.map fun s => (s, sourceRows D db t s)) := by
  obtain ⟨exposed, sources, assignments, filters⟩ := b
  exact List.pairwise_map.mpr (List.pairwise_map.mp h.1)

/-- The rows of the sources and assignments of a block, before its filters. -/
def candidateRows (D : ValueDomain α) (db : Database α) (t : VariableTable) (b : Block) :
    Multiset (Row α) :=
  (Source.combine D b.assignments (sourceRowsEach D db t b.sources)).map
    (Assignment.run D b.assignments)

theorem rows_eq_select (D : ValueDomain α) (db : Database α) (t : VariableTable) (b : Block) :
    b.rows D db t = select D b.exposed b.filters (b.candidateRows D db t) := by
  cases b
  rfl

end Block

namespace Database

/-- No column that is declared to have a value holds a null, as far as the given tables are read. -/
def Respects (db : Database α) (t : VariableTable) (tables : List (TableSource × List Variable)) :
    Prop :=
  ∀ table ∈ tables, ∀ v ∈ table.2, ∀ name type, t.info v = ⟨.column name, type, false⟩ →
    ∀ columns ∈ db table.1, columns name ≠ none

theorem Respects.mono {db : Database α} {t : VariableTable}
    {tables tables' : List (TableSource × List Variable)} (h : db.Respects t tables')
    (hsub : tables ⊆ tables') : db.Respects t tables :=
  fun table htable => h table (hsub htable)

end Database

/-- A source that is well scoped, binds each variable once and reads tables that are as declared. -/
structure Source.Proper (db : Database α) (t : VariableTable) (s : Source) : Prop where
  wellScoped : s.Scoped
  apart : Block.ApartSource s
  respects : db.Respects t (Block.tablesOfSource s)

namespace Block

/-- A block that is well scoped, binds each variable once and reads tables that are as declared. -/
structure Proper (db : Database α) (t : VariableTable) (b : Block) : Prop where
  wellScoped : b.Scoped
  apart : b.Apart
  respects : db.Respects t b.tables

variable {db : Database α} {t : VariableTable} {b c : Block} {s : Source}

theorem Proper.source (h : b.Proper db t) (hs : s ∈ b.sources) : s.Proper db t :=
  ⟨h.wellScoped.source hs, h.apart.source hs, h.respects.mono (tablesOfSource_subset hs)⟩

theorem Proper.block (h : s.Proper db t) (hc : c ∈ s.blocks) : c.Proper db t :=
  ⟨h.wellScoped.block hc, h.apart.block hc, h.respects.mono (tables_subset hc)⟩

end Block

end VirtualGraph
