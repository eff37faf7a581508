import VirtualGraph.Proofs.Block.Statement

/-!
# Aliases and references of statements

Every reference in a statement is to one of the sources it can see, and no alias is given twice.

A value is resolved through assignments until only columns are left, so a statement refers to
nothing but the columns that its scope holds, and each of them was bound together with its source.
The sources that a computation introduces have the numbers that it took from the supply, each once.
A computation that fails may have taken numbers as well, but it never gives one back.
-/

namespace VirtualGraph

/-! ### References -/

/-- A qualified reference: to a column of a table, or to the column of a variable in a nested
statement. -/
inductive Reference where
  | table (source : Nat) (name : String)
  | nested (source v : Nat)

mutual

/-- The references in a value. -/
def SqlValue.references : SqlValue → List Reference
  | .tableColumn source name => [.table source name]
  | .nestedColumn source v => [.nested source v]
  | .constant _ _ => []
  | .number _ => []
  | .null => []
  | .cast x _ => SqlValue.references x
  | .concat items => SqlValue.referencesAll items
  | .coalesce items => SqlValue.referencesAll items
  | .case branches otherwise =>
    SqlValue.referencesBranches branches ++ SqlValue.references otherwise

def SqlValue.referencesAll : List SqlValue → List Reference
  | [] => []
  | x :: rest => SqlValue.references x ++ SqlValue.referencesAll rest

def SqlValue.referencesBranches : List (SqlCondition × SqlValue) → List Reference
  | [] => []
  | (c, x) :: rest =>
    SqlCondition.references c ++ (SqlValue.references x ++ SqlValue.referencesBranches rest)

/-- The references in a condition. -/
def SqlCondition.references : SqlCondition → List Reference
  | .always => []
  | .never => []
  | .and items => SqlCondition.referencesAll items
  | .or items => SqlCondition.referencesAll items
  | .not inner => SqlCondition.references inner
  | .compare _ l r => SqlValue.references l ++ SqlValue.references r
  | .isNull x => SqlValue.references x
  | .isNotNull x => SqlValue.references x
  | .langMatches x _ => SqlValue.references x
  | .like x _ => SqlValue.references x

def SqlCondition.referencesAll : List SqlCondition → List Reference
  | [] => []
  | c :: rest => SqlCondition.references c ++ SqlCondition.referencesAll rest

end

namespace SqlSource

def number : SqlSource → Nat
  | table _ n => n
  | nested _ n => n
  | union _ n => n
  | leftJoin _ n _ => n
  | oneRow n => n

/-- The references that a source answers: to any column of a table, and to the columns that a nested
statement selects. All branches of a union have to select the column. -/
def Offers : SqlSource → Reference → Prop
  | table _ n, .table source _ => source = n
  | nested s n, .nested source v => source = n ∧ .var v ∈ s.columns.map (·.2)
  | union ss n, .nested source v => source = n ∧ ∀ s ∈ ss, .var v ∈ s.columns.map (·.2)
  | leftJoin s n _, .nested source v => source = n ∧ .var v ∈ s.columns.map (·.2)
  | _, _ => False

/-- The references in the conditions of a left join. -/
def joinReferences : SqlSource → List Reference
  | leftJoin _ _ on => SqlCondition.referencesAll on
  | _ => []

end SqlSource

mutual

/-- A statement and all statements nested in it. -/
def Select.parts : Select → List Select
  | ⟨distinct, columns, sources, filters⟩ =>
    ⟨distinct, columns, sources, filters⟩ :: SqlSource.partsAll sources

def Select.partsAll : List Select → List Select
  | [] => []
  | s :: rest => Select.parts s ++ Select.partsAll rest

/-- The statements nested in a source. -/
def SqlSource.parts : SqlSource → List Select
  | .table _ _ => []
  | .nested s _ => Select.parts s
  | .union ss _ => Select.partsAll ss
  | .leftJoin s _ _ => Select.parts s
  | .oneRow _ => []

def SqlSource.partsAll : List SqlSource → List Select
  | [] => []
  | s :: rest => SqlSource.parts s ++ SqlSource.partsAll rest

end

namespace Select

/-- Every reference is to a source of the statement, and in the conditions of a left join to that
join or a source before it. -/
structure WellScoped (s : Select) : Prop where
  columns : ∀ column ∈ s.columns, ∀ r ∈ column.1.references, ∃ item ∈ s.sources, item.Offers r
  filters : ∀ r ∈ SqlCondition.referencesAll s.filters, ∃ item ∈ s.sources, item.Offers r
  joins : ∀ before join after, s.sources = before ++ join :: after →
    ∀ r ∈ join.joinReferences, ∃ item ∈ before ++ [join], item.Offers r

/-- The source numbers of a statement and of all statements nested in it. -/
def numbers (s : Select) : List Nat := s.parts.flatMap fun part => part.sources.map (·.number)

/-- The aliases that a statement introduces at any depth. -/
def aliases (s : Select) : List String := s.numbers.map Dialect.sourceAlias

end Select

/-! ### What resolved values refer to -/

section Resolved

variable {t : VariableTable} {resolve : Variable → Result SqlValue} {P : Reference → Prop}

/-- All references have a property. -/
abbrev RefersTo (P : Reference → Prop) (refs : List Reference) : Prop := ∀ r ∈ refs, P r

theorem SqlValue.references_castFrom (type? : Option SqlType) (target : SqlType) (x : SqlValue) :
    (x.castFrom type? target).references = x.references := by
  unfold castFrom
  split
  · split <;> rfl
  · rfl

theorem SqlCondition.references_ofComparison (op : Comparator) (l r : Option SqlType)
    (x y : SqlValue) : (ofComparison op l r x y).references = x.references ++ y.references := by
  unfold ofComparison
  split
  · split <;> rfl
  · rfl

/-- The values of variables refer only to what has a property. -/
def ResolvesTo (P : Reference → Prop) (resolve : Variable → Result SqlValue) : Prop :=
  ∀ v, (resolve v).Meets Fault.Any fun x => RefersTo P x.references

mutual

theorem Scalar.toSql_refersTo (h : ResolvesTo P resolve) : ∀ x : Scalar,
    (x.toSql t resolve).Meets Fault.Any fun x' => RefersTo P x'.references
  | .column v => h v
  | .constant _ _ => by intro r hr; cases hr
  | .null => by intro r hr; cases hr
  | .concat [] => by intro r hr; cases hr
  | .concat (x :: rest) =>
    (Scalar.toSql_refersTo h x).bind fun x' hx =>
      (Scalar.toSqlEach_refersTo h .string rest).bind fun rest' hrest => by
        change RefersTo P ((x'.castFrom (x.type? t) .string).references ++
          SqlValue.referencesAll rest')
        rw [SqlValue.references_castFrom]
        exact List.forall_mem_append.mpr ⟨hx, hrest⟩
  | .coalesce items => (Scalar.toSqlEach_refersTo h _ items).bind fun _ hx => hx
  | .case branches otherwise =>
    (Scalar.toSqlBranches_refersTo h branches).bind fun _ hbranches =>
      (Scalar.toSql_refersTo h otherwise).bind fun _ hotherwise =>
        List.forall_mem_append.mpr ⟨hbranches, hotherwise⟩

theorem Scalar.toSqlEach_refersTo (h : ResolvesTo P resolve) (target : SqlType) :
    ∀ xs : List Scalar, (Scalar.toSqlEach t resolve target xs).Meets Fault.Any
      fun xs' => RefersTo P (SqlValue.referencesAll xs')
  | [] => by intro r hr; cases hr
  | x :: rest =>
    (Scalar.toSql_refersTo h x).bind fun x' hx =>
      (Scalar.toSqlEach_refersTo h target rest).bind fun rest' hrest => by
        change RefersTo P ((x'.castFrom (x.type? t) target).references ++
          SqlValue.referencesAll rest')
        rw [SqlValue.references_castFrom]
        exact List.forall_mem_append.mpr ⟨hx, hrest⟩

theorem Scalar.toSqlBranches_refersTo (h : ResolvesTo P resolve) :
    ∀ branches : List (Condition × Scalar),
    (Scalar.toSqlBranches t resolve branches).Meets Fault.Any
      fun branches' => RefersTo P (SqlValue.referencesBranches branches')
  | [] => by intro r hr; cases hr
  | (c, x) :: rest =>
    (Condition.toSql_refersTo h c).bind fun _ hc =>
      (Scalar.toSql_refersTo h x).bind fun _ hx =>
        (Scalar.toSqlBranches_refersTo h rest).bind fun _ hrest =>
          List.forall_mem_append.mpr ⟨hc, List.forall_mem_append.mpr ⟨hx, hrest⟩⟩

theorem Condition.toSql_refersTo (h : ResolvesTo P resolve) : ∀ c : Condition,
    (c.toSql t resolve).Meets Fault.Any fun c' => RefersTo P c'.references
  | .always => by intro r hr; cases hr
  | .never => by intro r hr; cases hr
  | .and items => (Condition.toSqlEach_refersTo h items).bind fun _ hx => hx
  | .or items => (Condition.toSqlEach_refersTo h items).bind fun _ hx => hx
  | .not inner => by
    have hinner := Condition.toSql_refersTo h inner
    cases inner with
    | isNull v => exact (h v).bind fun _ hx => hx
    | _ => exact hinner.bind fun _ hx => hx
  | .compare op l r =>
    (Scalar.toSql_refersTo h l).bind fun _ hl => (Scalar.toSql_refersTo h r).bind fun _ hr => by
      change RefersTo P (SqlCondition.references _)
      rw [SqlCondition.references_ofComparison]
      exact List.forall_mem_append.mpr ⟨hl, hr⟩
  | .sameVariable a b =>
    (h a).bind fun _ ha => (h b).bind fun _ hb => by
      change RefersTo P (SqlCondition.references _)
      rw [SqlCondition.references_ofComparison]
      exact List.forall_mem_append.mpr ⟨ha, hb⟩
  | .sameValue l r =>
    (Scalar.toSql_refersTo h l).bind fun _ hl => (Scalar.toSql_refersTo h r).bind fun _ hr => by
      change RefersTo P (SqlCondition.references _)
      rw [SqlCondition.references_ofComparison]
      exact List.forall_mem_append.mpr ⟨hl, hr⟩
  | .isNull v => (h v).bind fun _ hx => hx
  | .langMatches x _ => (Scalar.toSql_refersTo h x).bind fun x' hx => by
    change RefersTo P (SqlValue.references _)
    rw [SqlValue.references_castFrom]
    exact hx
  | .like x _ => (Scalar.toSql_refersTo h x).bind fun x' hx => by
    change RefersTo P (SqlValue.references _)
    rw [SqlValue.references_castFrom]
    exact hx

theorem Condition.toSqlEach_refersTo (h : ResolvesTo P resolve) : ∀ cs : List Condition,
    (Condition.toSqlEach t resolve cs).Meets Fault.Any
      fun cs' => RefersTo P (SqlCondition.referencesAll cs')
  | [] => by intro r hr; cases hr
  | c :: rest =>
    (Condition.toSql_refersTo h c).bind fun _ hc =>
      (Condition.toSqlEach_refersTo h rest).bind fun _ hrest =>
        List.forall_mem_append.mpr ⟨hc, hrest⟩

end

end Resolved

namespace SelectScope

variable {t : VariableTable} {P : Reference → Prop} {s : SelectScope}

/-- The references of all columns in scope have a property. -/
def AllColumns (P : Reference → Prop) (s : SelectScope) : Prop :=
  ∀ column ∈ s.columns, RefersTo P column.2.references

/-- Whatever assignments are followed, in the end there are columns. -/
theorem AllColumns.resolveIn (h : s.AllColumns P) (depth : Nat) :
    ResolvesTo P (s.resolveIn t depth) := by
  induction depth with
  | zero =>
    intro v
    unfold SelectScope.resolveIn
    cases hcolumn : s.columns.lookup v with
    | some column => exact h _ (mem_of_lookup hcolumn)
    | none => cases s.assigned? v <;> trivial
  | succ depth ih =>
    intro v
    unfold SelectScope.resolveIn
    cases hcolumn : s.columns.lookup v with
    | some column => exact h _ (mem_of_lookup hcolumn)
    | none =>
      cases s.assigned? v with
      | none => trivial
      | some x =>
        refine (Scalar.toSql_refersTo ih x).bind fun x' hx => ?_
        change RefersTo P (SqlValue.references _)
        rw [SqlValue.references_castFrom]
        exact hx

theorem AllColumns.select (h : s.AllColumns P) (columns : List (Selected × SqlName)) :
    (s.select t columns).Meets Fault.Any fun cs => cs.map (·.2) = columns.map (·.2) ∧
      ∀ c ∈ cs, RefersTo P c.1.references := by
  induction columns with
  | nil => exact ⟨rfl, fun c hc => absurd hc List.not_mem_nil⟩
  | cons column columns ih =>
    obtain ⟨what, name⟩ := column
    have hwhat : (s.selected t what).Meets Fault.Any fun x => RefersTo P x.references := by
      cases what with
      | var v => exact h.resolveIn _ v
      | index n => intro r hr; cases hr
      | missing type => intro r hr; cases hr
    refine hwhat.bind fun x hx => Result.Meets.bind ih fun cs hcs => ?_
    exact ⟨congrArg (name :: ·) hcs.1, List.forall_mem_cons.mpr ⟨hx, hcs.2⟩⟩

/-- Every column in scope is of one of the sources. -/
def OfferedBy (items : List SqlSource) (s : SelectScope) : Prop :=
  s.AllColumns fun r => ∃ item ∈ items, item.Offers r

theorem OfferedBy.mono {items more : List SqlSource} (h : s.OfferedBy items)
    (hmore : ∀ item ∈ items, item ∈ more) : s.OfferedBy more := by
  intro column hcolumn r hr
  obtain ⟨item, hitem, hoffers⟩ := h column hcolumn r hr
  exact ⟨item, hmore item hitem, hoffers⟩

/-- The columns of a table come with the table. -/
theorem bindTable_meets (table : TableSource) (n : Nat) (s : SelectScope) (vs : List Variable) :
    (s.bindTable t n vs).Meets Fault.Any fun s' =>
      ∀ items, .table table n ∈ items → s.OfferedBy items → s'.OfferedBy items := by
  induction vs generalizing s with
  | nil => exact fun items _ h => h
  | cons v vs ih =>
    unfold SelectScope.bindTable
    split
    · refine (ih _).mono fun s' hs' items hitem h => hs' items hitem ?_
      refine List.forall_mem_cons.mpr ⟨fun r hr => ?_, h⟩
      obtain rfl := List.mem_singleton.mp hr
      exact ⟨.table table n, hitem, rfl⟩
    · trivial

/-- The columns of a nested statement come with its source. -/
theorem OfferedBy.bindNested {items : List SqlSource} {item : SqlSource} {n : Nat}
    {vs : List Variable} (h : s.OfferedBy items) (hitem : ∀ v ∈ vs, item.Offers (.nested n v)) :
    (s.bindNested n vs).OfferedBy (items ++ [item]) := by
  refine List.forall_mem_append.mpr ⟨fun column hcolumn r hr => ?_,
    h.mono fun _ => List.mem_append_left _⟩
  obtain ⟨v, hv, rfl⟩ := List.mem_map.mp (List.mem_reverse.mp hcolumn)
  obtain rfl := List.mem_singleton.mp hr
  exact ⟨item, List.mem_append_right _ List.mem_cons_self, hitem v hv⟩

end SelectScope

/-! ### Numbers taken from the supply -/

/-- The numbers from `n` up to `n'`, each once. -/
structure Fills (n n' : Nat) (l : List Nat) : Prop where
  le : n ≤ n'
  nodup : l.Nodup
  mem_iff : ∀ k, k ∈ l ↔ n ≤ k ∧ k < n'

namespace Fills

variable {n m n' : Nat} {l l' : List Nat}

theorem nil (n : Nat) : Fills n n [] := ⟨n.le_refl, List.nodup_nil, by intro k; simp⟩

theorem append (h : Fills n m l) (h' : Fills m n' l') : Fills n n' (l ++ l') := by
  refine ⟨Nat.le_trans h.le h'.le, List.nodup_append'.mpr ⟨h.nodup, h'.nodup, ?_⟩, ?_⟩
  · intro k hk hk'
    have hlt := ((h.mem_iff k).mp hk).2
    have hge := ((h'.mem_iff k).mp hk').1
    omega
  · intro k
    have hle := h.le
    have hle' := h'.le
    rw [List.mem_append, h.mem_iff, h'.mem_iff]
    omega

theorem perm (h : Fills n n' l) (hperm : l.Perm l') : Fills n n' l' :=
  ⟨h.le, hperm.nodup_iff.mp h.nodup, fun k => hperm.mem_iff.symm.trans (h.mem_iff k)⟩

theorem singleton (n : Nat) : Fills n (n + 1) [n] :=
  ⟨n.le_succ, List.nodup_singleton n, by intro k; simp; omega⟩

end Fills

namespace SelectBuilder

variable {α β : Type} {post : Nat → Nat → α → Prop} {post' : Nat → Nat → β → Prop}

/-- No number is given back, and a result is related to the first number that was free before and
the first that is free after. -/
def Takes (post : Nat → Nat → α → Prop) (x : SelectBuilder α) : Prop :=
  ∀ n, n ≤ (x.run.run n).2 ∧ Result.Meets Fault.Any (post n (x.run.run n).2) (x.run.run n).1

theorem Takes.bind {x : SelectBuilder α} {f : α → SelectBuilder β} (h : x.Takes post)
    (hf : ∀ a, (f a).Takes fun m n' b => ∀ n, post n m a → post' n n' b) :
    (x >>= f).Takes post' := by
  intro n
  obtain ⟨hle, hpost⟩ := h n
  rw [ExceptT.run_bind, StateT.run_bind]
  rcases hrun : x.run.run n with ⟨r, m⟩
  rw [hrun] at hle hpost
  cases r with
  | error e => exact ⟨hle, trivial⟩
  | ok a =>
    obtain ⟨hle', hpost'⟩ := hf a m
    exact ⟨Nat.le_trans hle hle', hpost'.mono fun b hb => hb n hpost⟩

theorem takes_pure {a : α} (h : ∀ n, post n n a) : (pure a : SelectBuilder α).Takes post :=
  fun n => ⟨n.le_refl, h n⟩

theorem takes_lift {x : Result α} {P : α → Prop} (h : x.Meets Fault.Any P) :
    (liftM x : SelectBuilder α).Takes fun n n' a => n' = n ∧ P a := by
  intro n
  cases x with
  | error e => exact ⟨n.le_refl, trivial⟩
  | ok a => exact ⟨n.le_refl, rfl, h⟩

theorem takes_freshSource : freshSource.Takes fun n n' a => a = n ∧ n' = n + 1 :=
  fun n => ⟨n.le_succ, rfl, rfl⟩

theorem Takes.mono {post' : Nat → Nat → α → Prop} {x : SelectBuilder α} (h : x.Takes post)
    (hmono : ∀ n n' a, post n n' a → post' n n' a) : x.Takes post' := fun n =>
  ⟨(h n).1, (h n).2.mono fun a ha => hmono n _ a ha⟩

end SelectBuilder

/-! ### Statements -/

namespace SqlSource

/-- The numbers of sources, each with those of the statements nested in it. -/
def numbersAll (items : List SqlSource) : List Nat :=
  items.flatMap fun item =>
    item.number :: item.parts.flatMap fun part => part.sources.map (·.number)

theorem numbersAll_append (items more : List SqlSource) :
    numbersAll (items ++ more) = numbersAll items ++ numbersAll more :=
  List.flatMap_append

theorem partsAll_append (items more : List SqlSource) :
    partsAll (items ++ more) = partsAll items ++ partsAll more := by
  induction items with
  | nil => rfl
  | cons item items ih => rw [List.cons_append, partsAll, partsAll, ih, List.append_assoc]

theorem numbersAll_perm (items : List SqlSource) :
    (numbersAll items).Perm (items.map (·.number) ++
      (partsAll items).flatMap fun part => part.sources.map (·.number)) := by
  induction items with
  | nil => exact .nil
  | cons item items ih =>
    rw [numbersAll, List.flatMap_cons, List.map_cons, partsAll, List.flatMap_append,
      List.cons_append, List.cons_append]
    refine .cons _ ((ih.append_left _).trans ?_)
    rw [← List.append_assoc, ← List.append_assoc]
    exact List.perm_append_comm.append_right _

/-- Every left join of a list sees the sources before it. -/
def JoinsScoped : List SqlSource → List SqlSource → Prop
  | _, [] => True
  | before, item :: rest =>
    (∀ r ∈ item.joinReferences, ∃ other ∈ before ++ [item], other.Offers r) ∧
      JoinsScoped (before ++ [item]) rest

theorem joinsScoped_append {before items more : List SqlSource} :
    JoinsScoped before (items ++ more) ↔
      JoinsScoped before items ∧ JoinsScoped (before ++ items) more := by
  induction items generalizing before with
  | nil => simp [JoinsScoped]
  | cons item items ih =>
    rw [List.cons_append, JoinsScoped, JoinsScoped, ih, and_assoc, List.append_assoc,
      List.singleton_append]

end SqlSource

/-- What is said of a statement that takes the numbers from `n` up to `n'`. -/
structure Select.Written (names : List SqlName) (n n' : Nat) (s : Select) : Prop where
  names_eq : s.columns.map (·.2) = names
  fills : Fills n n' s.numbers
  wellScoped : ∀ part ∈ s.parts, part.WellScoped

/-- What is said of the sources that take the numbers from `n` up to `n'`, and of the scope after
them. -/
structure SelectScope.Introduces (scope : SelectScope) (n n' : Nat)
    (r : SelectScope × List SqlSource) : Prop where
  fills : Fills n n' (SqlSource.numbersAll r.2)
  wellScoped : ∀ part ∈ SqlSource.partsAll r.2, part.WellScoped
  offered : ∀ before, scope.OfferedBy before →
    r.1.OfferedBy (before ++ r.2) ∧ SqlSource.JoinsScoped before r.2

/-- The statement of a block, whatever it selects. -/
def Block.IsWritten (t : VariableTable) (b : Block) : Prop :=
  ∀ (distinct : Bool) (columns : List (Selected × SqlName)),
    (b.toSelect t distinct columns).Takes (Select.Written (columns.map (·.2)))

section Writing

open SelectBuilder

variable {t : VariableTable} {scope : SelectScope} {n m : Nat}

/-- A source with nested statements, of which none refers to the statement around them. -/
theorem SelectScope.introduces_derived {item : SqlSource} {vs : List Variable}
    (hnumber : item.number = m) (hjoin : item.joinReferences = [])
    (hfills : Fills n m (item.parts.flatMap fun part => part.sources.map (·.number)))
    (hparts : ∀ part ∈ item.parts, part.WellScoped)
    (hoffers : ∀ v ∈ vs, item.Offers (.nested m v)) :
    scope.Introduces n (m + 1) (scope.bindNested m vs, [item]) := by
  refine ⟨?_, ?_, fun before hbefore => ⟨hbefore.bindNested hoffers, ?_, trivial⟩⟩
  · refine (hfills.append (Fills.singleton m)).perm ?_
    rw [SqlSource.numbersAll, List.flatMap_singleton, hnumber]
    exact List.perm_append_singleton _ _
  · rw [SqlSource.partsAll, SqlSource.partsAll, List.append_nil]
    exact hparts
  · rw [hjoin]
    exact fun r hr => absurd hr List.not_mem_nil

theorem Select.Written.offers {s : Select} {vs : List Variable}
    (h : s.Written (vs.map SqlName.var) n m) {v : Variable} (hv : v ∈ vs) :
    .var v ∈ s.columns.map (·.2) :=
  h.names_eq ▸ List.mem_map_of_mem hv

/-- The left join of a nested statement. A single row stands before it if nothing else does, and has
the number after that of the join. -/
theorem SelectScope.introduces_leftJoin {s : Select} {vs : List Variable} {on : List SqlCondition}
    {left : List SqlSource} {n' : Nat} (hs : s.Written (vs.map SqlName.var) n m)
    (hon : ∀ items, (scope.bindNested m vs).OfferedBy items →
      ∀ r ∈ SqlCondition.referencesAll on, ∃ item ∈ items, item.Offers r)
    (hleft : left = [] ∧ n' = m + 1 ∨ left = [.oneRow (m + 1)] ∧ n' = m + 2) :
    scope.Introduces n n' (scope.bindNested m vs, left ++ [.leftJoin s m on]) := by
  have hnone : SqlSource.partsAll left = [] ∧ ∀ before, SqlSource.JoinsScoped before left := by
    rcases hleft with ⟨rfl, -⟩ | ⟨rfl, -⟩
    · exact ⟨rfl, fun before => trivial⟩
    · exact ⟨rfl, fun before => ⟨fun r hr => absurd hr List.not_mem_nil, trivial⟩⟩
  have hfills : Fills (m + 1) n' (SqlSource.numbersAll left) := by
    rcases hleft with ⟨rfl, rfl⟩ | ⟨rfl, rfl⟩
    · exact .nil _
    · exact .singleton _
  refine ⟨?_, ?_, fun before hbefore => ?_⟩
  · refine ((hs.fills.append (.singleton m)).append hfills).perm ?_
    change List.Perm _ (SqlSource.numbersAll (left ++ [.leftJoin s m on]))
    rw [SqlSource.numbersAll_append]
    refine List.perm_append_comm.trans (List.Perm.append_left _ ?_)
    rw [SqlSource.numbersAll, List.flatMap_singleton]
    exact List.perm_append_singleton m s.numbers
  · rw [SqlSource.partsAll_append, hnone.1, SqlSource.partsAll, SqlSource.partsAll, List.nil_append,
      List.append_nil]
    exact hs.wellScoped
  · have hoffered : (scope.bindNested m vs).OfferedBy (before ++ left ++ [.leftJoin s m on]) := by
      refine OfferedBy.bindNested ?_ fun v hv => ⟨rfl, hs.offers hv⟩
      exact hbefore.mono fun _ => List.mem_append_left _
    rw [← List.append_assoc]
    exact ⟨hoffered, SqlSource.joinsScoped_append.mpr
      ⟨hnone.2 before, hon _ hoffered, trivial⟩⟩

theorem Selected.names_ofVariables (vs : List Variable) :
    (Selected.ofVariables vs).map (·.2) = vs.map SqlName.var := by
  simp [Selected.ofVariables]

theorem Selected.names_ofBranch (index : Variable) (vs : List Variable) (n : Nat)
    (exposed : List Variable) :
    (Selected.ofBranch t index vs n exposed).map (·.2) = (index :: vs).map SqlName.var := by
  simp [Selected.ofBranch]

theorem Block.toBranches_takes (index : Variable) (vs : List Variable) {bs : List Block}
    (h : ∀ b ∈ bs, b.IsWritten t) (k : Nat) :
    (Block.toBranches t index vs k bs).Takes fun n n' ss =>
      Fills n n' ((Select.partsAll ss).flatMap fun part => part.sources.map (·.number)) ∧
      (∀ part ∈ Select.partsAll ss, part.WellScoped) ∧
      ∀ s ∈ ss, s.columns.map (·.2) = (index :: vs).map SqlName.var := by
  induction bs generalizing k with
  | nil =>
    refine takes_pure fun n => ⟨.nil n, ?_, ?_⟩
    · exact fun part hpart => absurd hpart List.not_mem_nil
    · exact fun s hs => absurd hs List.not_mem_nil
  | cons b bs ih =>
    obtain ⟨hb, hbs⟩ := List.forall_mem_cons.mp h
    rw [Block.toBranches]
    refine (hb false _).bind fun s => (ih hbs (k + 1)).bind fun ss => takes_pure ?_
    rintro n' m ⟨hfills, hparts, hnames⟩ n hs
    refine ⟨?_, List.forall_mem_append.mpr ⟨hs.wellScoped, hparts⟩, ?_⟩
    · rw [Select.partsAll, List.flatMap_append]
      exact hs.fills.append hfills
    · exact List.forall_mem_cons.mpr ⟨hs.names_eq.trans (Selected.names_ofBranch ..), hnames⟩

/-- What is selected refers to the columns in scope. -/
theorem SelectScope.select_refersTo (scope : SelectScope) (columns : List (Selected × SqlName)) :
    (scope.select t columns).Meets Fault.Any fun cs => cs.map (·.2) = columns.map (·.2) ∧
      ∀ items, scope.OfferedBy items →
        ∀ c ∈ cs, ∀ r ∈ c.1.references, ∃ item ∈ items, item.Offers r := by
  have hcolumns : scope.AllColumns fun r => ∃ column ∈ scope.columns, r ∈ column.2.references :=
    fun column hcolumn r hr => ⟨column, hcolumn, hr⟩
  refine (hcolumns.select columns).mono fun cs h => ⟨h.1, fun items hitems c hc r hr => ?_⟩
  obtain ⟨column, hcolumn, hr⟩ := h.2 c hc r hr
  exact hitems column hcolumn r hr

/-- So do conditions. -/
theorem SelectScope.toSqlEach_refersTo (scope : SelectScope) (cs : List Condition) :
    (Condition.toSqlEach t (scope.resolve t) cs).Meets Fault.Any fun cs' =>
      ∀ items, scope.OfferedBy items →
        ∀ r ∈ SqlCondition.referencesAll cs', ∃ item ∈ items, item.Offers r := by
  have hcolumns : scope.AllColumns fun r => ∃ column ∈ scope.columns, r ∈ column.2.references :=
    fun column hcolumn r hr => ⟨column, hcolumn, hr⟩
  refine (Condition.toSqlEach_refersTo (hcolumns.resolveIn _) cs).mono
    fun cs' h items hitems r hr => ?_
  obtain ⟨column, hcolumn, hr⟩ := h r hr
  exact hitems column hcolumn r hr

theorem Source.toSql_takes {s : Source} (hblocks : ∀ b ∈ s.blocks, b.IsWritten t)
    (scope : SelectScope) (first : Bool) :
    (Source.toSql t scope first s).Takes scope.Introduces := by
  cases s with
  | table table vs =>
    rw [Source.toSql]
    refine takes_freshSource.bind fun k =>
      (takes_lift (SelectScope.bindTable_meets table k scope vs)).bind fun scope' => takes_pure ?_
    rintro _ m ⟨rfl, hscope'⟩ n ⟨rfl, rfl⟩
    refine ⟨Fills.singleton _, fun part hpart => absurd hpart List.not_mem_nil, ?_⟩
    intro before hbefore
    refine ⟨hscope' _ (List.mem_append_right _ List.mem_cons_self) ?_, ?_, trivial⟩
    · exact hbefore.mono fun _ => List.mem_append_left _
    · exact fun r hr => absurd hr List.not_mem_nil
  | nested block vs =>
    rw [Source.toSql]
    refine (hblocks block List.mem_cons_self false _).bind fun s =>
      takes_freshSource.bind fun k => takes_pure ?_
    rintro _ m ⟨rfl, rfl⟩ n hs
    rw [Selected.names_ofVariables] at hs
    exact SelectScope.introduces_derived rfl rfl hs.fills hs.wellScoped fun v hv =>
      ⟨rfl, hs.offers hv⟩
  | union index branches vs =>
    rw [Source.toSql]
    refine (Block.toBranches_takes index vs hblocks 0).bind fun ss =>
      takes_freshSource.bind fun k => takes_pure ?_
    rintro _ m ⟨rfl, rfl⟩ n ⟨hfills, hparts, hnames⟩
    refine SelectScope.introduces_derived rfl rfl hfills hparts fun v hv => ⟨rfl, fun s hs => ?_⟩
    exact hnames s hs ▸ List.mem_map_of_mem hv
  | leftJoin block on vs =>
    rw [Source.toSql]
    refine (hblocks block List.mem_cons_self false _).bind fun s =>
      takes_freshSource.bind fun k => ?_
    have hon := takes_lift ((scope.bindNested k vs).toSqlEach_refersTo (t := t) on)
    cases first with
    | false =>
      refine hon.bind fun on' => takes_pure ?_
      rintro _ m ⟨rfl, hon'⟩ k ⟨rfl, rfl⟩ n hs
      rw [Selected.names_ofVariables] at hs
      exact SelectScope.introduces_leftJoin hs hon' (.inl ⟨rfl, rfl⟩)
    | true =>
      refine takes_freshSource.bind fun one => hon.bind fun on' => takes_pure ?_
      rintro _ _ ⟨rfl, hon'⟩ m ⟨rfl, rfl⟩ k ⟨rfl, rfl⟩ n hs
      rw [Selected.names_ofVariables] at hs
      exact SelectScope.introduces_leftJoin hs hon' (.inr ⟨rfl, rfl⟩)

theorem Source.toSqlEach_takes {ss : List Source}
    (hblocks : ∀ s ∈ ss, ∀ b ∈ s.blocks, b.IsWritten t)
    (scope : SelectScope) (first : Bool) :
    (Source.toSqlEach t scope first ss).Takes scope.Introduces := by
  induction ss generalizing scope first with
  | nil =>
    rw [Source.toSqlEach]
    refine takes_pure fun n => ⟨.nil n, fun part hpart => absurd hpart List.not_mem_nil, ?_⟩
    exact fun before hbefore => ⟨(List.append_nil before).symm ▸ hbefore, trivial⟩
  | cons s ss ih =>
    obtain ⟨hs, hss⟩ := List.forall_mem_cons.mp hblocks
    rw [Source.toSqlEach]
    refine (Source.toSql_takes hs scope first).bind ?_
    rintro ⟨scope', items⟩
    refine (ih hss scope' false).bind ?_
    rintro ⟨scope'', more⟩
    refine takes_pure fun n' m hmore n hitems => ⟨?_, ?_, fun before hbefore => ?_⟩
    · rw [SqlSource.numbersAll_append]
      exact hitems.fills.append hmore.fills
    · rw [SqlSource.partsAll_append]
      exact List.forall_mem_append.mpr ⟨hitems.wellScoped, hmore.wellScoped⟩
    · obtain ⟨hoffered, hjoins⟩ := hitems.offered before hbefore
      obtain ⟨hoffered', hjoins'⟩ := hmore.offered _ hoffered
      exact ⟨List.append_assoc before items more ▸ hoffered',
        SqlSource.joinsScoped_append.mpr ⟨hjoins, hjoins'⟩⟩

/-- The statement of a block is well scoped at every depth, and its sources have the numbers that
were taken for it. -/
theorem Block.isWritten (t : VariableTable) (b : Block) : b.IsWritten t := by
  induction b using Block.induction with
  | step b ih =>
    intro distinct columns
    obtain ⟨exposed, sources, assignments, filters⟩ := b
    rw [Block.toSelect]
    refine (Source.toSqlEach_takes ih ⟨[], assignments⟩ true).bind ?_
    rintro ⟨scope, items⟩
    refine (takes_lift (scope.select_refersTo columns)).bind fun cs =>
      (takes_lift (scope.toSqlEach_refersTo filters)).bind fun fs => takes_pure ?_
    rintro _ _ ⟨rfl, hfilters⟩ m ⟨rfl, hnames, hcolumns⟩ n hitems
    obtain ⟨hoffered, hjoins⟩ := hitems.offered [] fun column hcolumn =>
      absurd hcolumn List.not_mem_nil
    refine ⟨hnames, hitems.fills.perm (SqlSource.numbersAll_perm items),
      List.forall_mem_cons.mpr ⟨⟨hcolumns items hoffered, hfilters items hoffered, ?_⟩,
        hitems.wellScoped⟩⟩
    rintro before join after rfl
    exact (SqlSource.joinsScoped_append.mp hjoins).2.1

end Writing

/-! ### Sequences of requests -/

namespace SelectRequest

/-- The statement of a request, and the first number that is free after it. -/
def statement (t : VariableTable) (q : SelectRequest) (first : Nat) : Result Select × Nat :=
  (q.block.toSelect t q.modifiers.distinct
    (q.outputs.map fun (name, v) => (.var v, .output name))).run.run first

/-- A request that was carried out: the first number that was free before it and the first that is
free after it, and its statement. -/
structure Outcome where
  request : SelectRequest
  first : Nat
  next : Nat
  statement : Result Select

/-- The outcomes of one request after the other. -/
def outcomes (t : VariableTable) : List SelectRequest → Nat → List Outcome
  | [], _ => []
  | q :: rest, first =>
    ⟨q, first, (q.statement t first).2, (q.statement t first).1⟩ ::
      outcomes t rest (q.statement t first).2

/-- The text of the statement. -/
def Outcome.text (d : Dialect) (o : Outcome) : Result String :=
  o.statement.map fun s =>
    d.select s ++ d.limitOffset o.request.modifiers.limit o.request.modifiers.offset

/-- The aliases that a request took, whether it failed or not. -/
def Outcome.aliases (o : Outcome) : List String :=
  (List.range' o.first (o.next - o.first)).map Dialect.sourceAlias

variable {t : VariableTable}

theorem sqlEach_eq (d : Dialect) (qs : List SelectRequest) (first : Nat) :
    sqlEach d t qs first = (outcomes t qs first).map (·.text d) := by
  induction qs generalizing first with
  | nil => rfl
  | cons q qs ih =>
    rw [outcomes, List.map_cons, ← ih]
    rfl

theorem statement_takes (q : SelectRequest) (first : Nat) :
    first ≤ (q.statement t first).2 ∧ (q.statement t first).1.Meets Fault.Any fun s =>
      s.Written (q.outputs.map fun output => SqlName.output output.1) first
        (q.statement t first).2 := by
  have h := q.block.isWritten t q.modifiers.distinct
    (q.outputs.map fun (name, v) => (.var v, .output name)) first
  rw [List.map_map] at h
  exact h

theorem first_le_of_mem {qs : List SelectRequest} {first : Nat} {o : Outcome}
    (h : o ∈ outcomes t qs first) : first ≤ o.first ∧ o.first ≤ o.next := by
  induction qs generalizing first with
  | nil => cases h
  | cons q qs ih =>
    have hle := (statement_takes (t := t) q first).1
    rcases List.mem_cons.mp h with rfl | h
    · exact ⟨first.le_refl, hle⟩
    · have hmem := ih h
      exact ⟨Nat.le_trans hle hmem.1, hmem.2⟩

theorem sourceAlias_injective : Function.Injective Dialect.sourceAlias := by
  intro n m h
  refine toString_injective (String.toList_inj.mp ?_)
  simpa [Dialect.sourceAlias] using congrArg String.toList h

theorem nodup_aliases (qs : List SelectRequest) (first : Nat) :
    ((outcomes t qs first).flatMap Outcome.aliases).Nodup := by
  induction qs generalizing first with
  | nil => exact List.nodup_nil
  | cons q qs ih =>
    rw [outcomes, List.flatMap_cons]
    refine List.nodup_append'.mpr ⟨(List.nodup_range').map sourceAlias_injective, ih _, ?_⟩
    intro name hname hlater
    obtain ⟨k, hk, rfl⟩ := List.mem_map.mp hname
    obtain ⟨o, ho, hname⟩ := List.mem_flatMap.mp hlater
    obtain ⟨k', hk', heq⟩ := List.mem_map.mp hname
    have hsame := sourceAlias_injective heq
    -- the later request took its numbers after this one
    have hbefore := (List.mem_range'_1.mp hk).2
    have hafter := (List.mem_range'_1.mp hk').1
    have hle := (statement_takes (t := t) q first).1
    have hfirst := (first_le_of_mem ho).1
    dsimp only at hbefore
    omega

theorem Outcome.written_of_mem {qs : List SelectRequest} {first : Nat} {o : Outcome}
    (h : o ∈ outcomes t qs first) : o.statement.Meets Fault.Any fun s =>
      s.Written (o.request.outputs.map fun output => .output output.1) o.first o.next := by
  induction qs generalizing first with
  | nil => cases h
  | cons q qs ih =>
    rcases List.mem_cons.mp h with rfl | h
    · exact (statement_takes q first).2
    · exact ih h

/-- Statements are well scoped. Over a sequence of requests no alias is introduced twice, and in
every statement that comes out each reference is to a source that it can see. -/
theorem sqlEach_wellScoped (d : Dialect) (t : VariableTable) (qs : List SelectRequest)
    (first : Nat) : sqlEach d t qs first = (outcomes t qs first).map (·.text d) ∧
      ((outcomes t qs first).flatMap Outcome.aliases).Nodup ∧
      ∀ o ∈ outcomes t qs first, ∀ s, o.statement = .ok s →
        s.aliases.Perm o.aliases ∧ ∀ part ∈ s.parts, part.WellScoped := by
  refine ⟨sqlEach_eq d qs first, nodup_aliases qs first, fun o ho s hs => ?_⟩
  have hwritten := Outcome.written_of_mem ho
  rw [hs] at hwritten
  refine ⟨List.Perm.map _ ?_, hwritten.wellScoped⟩
  rw [List.perm_ext_iff_of_nodup hwritten.fills.nodup List.nodup_range']
  intro k
  have hle := hwritten.fills.le
  rw [hwritten.fills.mem_iff, List.mem_range'_1]
  omega

/-- A left join, a request that fails after it has taken an alias, and a table. -/
theorem sqlEach_wellScoped_after_failure :
    let t : VariableTable := [⟨.column "id", .integer, false⟩, ⟨.column "boss", .integer, true⟩]
    let people : Block := ⟨[0], [.table (.table "people") [0]], [], []⟩
    let bosses : Block := ⟨[1], [.table (.table "bosses") [1]], [], []⟩
    let qs : List SelectRequest :=
      [⟨⟨[0, 1], people.sources ++ [.leftJoin bosses [.sameVariable 0 1] [1]], [], []⟩,
          [("x", 0), ("y", 1)], ⟨false, none, none⟩⟩,
        ⟨people, [("x", 1)], ⟨false, none, none⟩⟩, ⟨people, [("x", 0)], ⟨true, none, none⟩⟩]
    (sqlEach .sqlite t qs 0).map Except.toOption =
        [some ("SELECT s0.id AS x, s2.c1 AS y FROM people AS s0 LEFT JOIN " ++
          "(SELECT s1.boss AS c1 FROM bosses AS s1) AS s2 ON s0.id = s2.c1"),
          none, some "SELECT DISTINCT s4.id AS x FROM people AS s4"] ∧
      (outcomes t qs 0).flatMap Outcome.aliases = ["s0", "s1", "s2", "s3", "s4"] ∧
      ((outcomes t qs 0).flatMap Outcome.aliases).Nodup ∧
      ∀ o ∈ outcomes t qs 0, ∀ s, o.statement = .ok s →
        s.aliases.Perm o.aliases ∧ ∀ part ∈ s.parts, part.WellScoped := by
  intro t people bosses qs
  exact ⟨by decide +kernel, by decide +kernel, (sqlEach_wellScoped .sqlite t qs 0).2⟩

end SelectRequest

end VirtualGraph
