import VirtualGraph.Draft.Build
import VirtualGraph.Proofs.Draft.Present
import VirtualGraph.Proofs.Draft.Steps

/-!
# Rows that fit a draft

A row fits a draft when its values are those that the tables and sources of the draft can give, the
assignments are made, and no column is null that the draft guards against nulls. Whatever is added
to a draft later, a row that fits the larger draft fits the smaller one. So what a binding says
about nulls is settled when the binding is made: on every row that fits, whichever variables are
taken later.
-/

namespace VirtualGraph

variable {α : Type}

theorem Source.Fits.congr {row row' : Row α} {s : Source × Multiset (Row α)} (h : Fits row s)
    (hrow : ∀ v ∈ s.1.produced, row' v = row v) : Fits row' s := by
  obtain ⟨r, hr, hmatch⟩ | ⟨hon, hnull⟩ := h
  · exact .inl ⟨r, hr, fun v hv => (hrow v hv).trans (hmatch v hv)⟩
  · exact .inr ⟨hon, fun v hv => (hrow v hv).trans (hnull v hv)⟩

theorem VariableTable.info_of_prefix {t T : VariableTable} {info : VariableInfo}
    (h : t ++ [info] <+: T) : T.info t.length = info := by
  obtain ⟨rest, rfl⟩ := h
  simp [VariableTable.info]

/-- What drafts are read with: values, a database of them, and the tables of numbered rows. Columns
that the tables declare not to be null are not null. -/
structure Reading (α : Type) where
  domain : ValueDomain α
  tells : domain.TellsNumbers
  db : Database α
  rows : List (Nat × LogicalTable)
  single : ∀ r ∈ rows, ∀ r' ∈ rows, r.1 = r'.1 → r = r'
  keeps : ∀ r ∈ rows, ∀ columns ∈ db r.2.source, ∀ name, r.2.isNullable name = false →
    columns name ≠ none

namespace Draft

open DraftBuilder

variable {S : Reading α} {t t' T : VariableTable} {d d' d'' : Draft} {row : Row α}

/-- A row has values that the draft allows, and no nulls in the columns that it guards. -/
structure Fits (S : Reading α) (T : VariableTable) (d : Draft) (row : Row α) : Prop where
  tables : ∀ table ∈ d.tables, ∃ columns ∈ S.db table.source,
    ∀ v ∈ table.vars, row v = T.row columns v
  sources : ∀ s ∈ d.sources, Source.Fits row (s, Block.sourceRows S.domain S.db T s)
  assigned : ∀ a ∈ d.assignments, row a.target = a.value.eval S.domain row
  guards : ∀ v ∈ d.tableVars, .notNull v ∈ d.filters → row v ≠ none

/-- All that a draft asks of a row, another one asks too. -/
structure Inside (d d' : Draft) : Prop where
  tables : ∀ table ∈ d.tables, ∃ table' ∈ d'.tables,
    table'.source = table.source ∧ table.vars ⊆ table'.vars
  sources : d.sources ⊆ d'.sources
  assignments : d.assignments ⊆ d'.assignments
  filters : d.filters ⊆ d'.filters

theorem Inside.of_tables (htables : d'.tables = d.tables) (hsources : d.sources ⊆ d'.sources)
    (hassignments : d.assignments ⊆ d'.assignments) (hfilters : d.filters ⊆ d'.filters) :
    d.Inside d' where
  tables := fun table htable => ⟨table, htables ▸ htable, rfl, List.Subset.refl _⟩
  sources := hsources
  assignments := hassignments
  filters := hfilters

theorem Inside.refl (d : Draft) : d.Inside d :=
  .of_tables rfl (List.Subset.refl _) (List.Subset.refl _) (List.Subset.refl _)

theorem Inside.trans (h : d.Inside d') (h' : d'.Inside d'') : d.Inside d'' where
  tables := fun table htable => by
    obtain ⟨table', htable', hsource, hvars⟩ := h.tables table htable
    obtain ⟨table'', htable'', hsource', hvars'⟩ := h'.tables table' htable'
    exact ⟨table'', htable'', hsource'.trans hsource, List.Subset.trans hvars hvars'⟩
  sources := List.Subset.trans h.sources h'.sources
  assignments := List.Subset.trans h.assignments h'.assignments
  filters := List.Subset.trans h.filters h'.filters

theorem Inside.tableVars (h : d.Inside d') : d.tableVars ⊆ d'.tableVars := by
  intro v hv
  obtain ⟨table, htable, hv⟩ := List.mem_flatMap.mp hv
  obtain ⟨table', htable', -, hvars⟩ := h.tables table htable
  exact List.mem_flatMap.mpr ⟨table', htable', hvars hv⟩

theorem Fits.inside (h : d'.Fits S T row) (hd : d.Inside d') : d.Fits S T row where
  tables := fun table htable => by
    obtain ⟨table', htable', hsource, hvars⟩ := hd.tables table htable
    obtain ⟨columns, hcolumns, hrow⟩ := h.tables table' htable'
    exact ⟨columns, hsource ▸ hcolumns, fun v hv => hrow v (hvars hv)⟩
  sources := fun s hs => h.sources s (hd.sources hs)
  assigned := fun a ha => h.assigned a (hd.assignments ha)
  guards := fun v hv hfilter => h.guards v (hd.tableVars hv) (hd.filters hfilter)

theorem inside_addFilter (d : Draft) (c : Condition) : d.Inside (d.addFilter c) :=
  .of_tables rfl (List.Subset.refl _) (List.Subset.refl _) (List.subset_append_left _ _)

theorem inside_setBinding (d : Draft) (name : String) (b : Binding) :
    d.Inside (d.setBinding name b) :=
  .of_tables rfl (List.Subset.refl _) (List.Subset.refl _) (List.Subset.refl _)

theorem inside_assign (d : Draft) (v : Variable) (x : Scalar) : d.Inside (d.assign v x) :=
  .of_tables rfl (List.Subset.refl _) (List.subset_append_left _ _) (List.Subset.refl _)

theorem inside_addSource (d : Draft) (s : Source) : d.Inside (d.addSource s) :=
  .of_tables rfl (List.subset_append_left _ _) (List.Subset.refl _) (List.Subset.refl _)

/-- A property of all rows that fit a draft, whatever variables are taken later. -/
def Always (S : Reading α) (t : VariableTable) (d : Draft) (P : Row α → Prop) : Prop :=
  ∀ T, t <+: T → ∀ row, d.Fits S T row → P row

theorem Always.mono {P : Row α → Prop} (h : d.Always S t P) (ht : t <+: t') (hd : d.Inside d') :
    d'.Always S t' P :=
  fun T hT row hrow => h T (ht.trans hT) row (hrow.inside hd)

/-- An assigned variable has the value that it was assigned. -/
theorem always_assign (S : Reading α) (t : VariableTable) (d : Draft) (v : Variable) (x : Scalar) :
    (d.assign v x).Always S t fun row => row v = x.eval S.domain row :=
  fun _ _ _ hrow => hrow.assigned ⟨v, x⟩ (List.mem_append_right _ List.mem_cons_self)

/-- What a draft says about nulls is true on all rows that fit it. -/
structure Valued (S : Reading α) (t : VariableTable) (d : Draft) : Prop where
  rows : ∀ table ∈ d.tables, ∃ r ∈ S.rows, r.1 = table.row ∧ r.2.source = table.source
  columns : d.Always S t fun row => d.columns.Filled row
  bindings : ∀ e ∈ d.bindings, d.Always S t fun row => e.2.Present S.domain row

theorem valued_empty : empty.Valued S t where
  rows := fun _ h => absurd h List.not_mem_nil
  columns := fun _ _ _ _ _ h => absurd h List.not_mem_nil
  bindings := fun _ h => absurd h List.not_mem_nil

theorem Valued.mono (h : d.Valued S t) (ht : t <+: t') : d.Valued S t' where
  rows := h.rows
  columns := h.columns.mono ht (.refl d)
  bindings := fun e he => (h.bindings e he).mono ht (.refl d)

/-- A draft with the same tables and columns as one inside it. -/
theorem Valued.grow (h : d.Valued S t) (ht : t <+: t') (hd : d.Inside d')
    (htables : d'.tables = d.tables) (hcolumns : d'.columns = d.columns)
    (hbindings : ∀ e ∈ d'.bindings, e ∈ d.bindings ∨
      d'.Always S t' fun row => e.2.Present S.domain row) : d'.Valued S t' where
  rows := htables ▸ h.rows
  columns := hcolumns ▸ h.columns.mono ht hd
  bindings := fun e he => (hbindings e he).elim (fun he => (h.bindings e he).mono ht hd) id

theorem Valued.addFilter (h : d.Valued S t) (c : Condition) : (d.addFilter c).Valued S t :=
  h.grow (List.prefix_refl t) (inside_addFilter d c) rfl rfl fun _ he => .inl he

theorem Valued.addSource (h : d.Valued S t) (s : Source) : (d.addSource s).Valued S t :=
  h.grow (List.prefix_refl t) (inside_addSource d s) rfl rfl fun _ he => .inl he

theorem Valued.assign (h : d.Valued S t) (ht : t <+: t') (v : Variable) (x : Scalar) :
    (d.assign v x).Valued S t' :=
  h.grow ht (inside_assign d v x) rfl rfl fun _ he => .inl he

theorem Valued.setBinding (h : d.Valued S t) (name : String) {b : Binding}
    (hb : d.Always S t fun row => b.Present S.domain row) : (d.setBinding name b).Valued S t := by
  refine h.grow (List.prefix_refl t) (inside_setBinding d name b) rfl rfl fun e he => ?_
  obtain rfl | he := Bindings.mem_insert he
  · exact .inr (hb.mono (List.prefix_refl t) (inside_setBinding d name b))
  · exact .inl he

/-- What an expression can see is as its bindings say. -/
theorem Valued.scope (h : d.Valued S t) (t' : VariableTable) (names : List String) :
    d.Always S t fun row => (d.scope t' names).Present S.domain row :=
  fun T hT row hrow => ⟨h.columns T hT row hrow,
    fun e he => h.bindings e (List.mem_filter.mp he).1 T hT row hrow⟩

/-- The text of a binding that is said not to be null is not null. -/
theorem Valued.toScalar (h : d.Valued S t) {b : Binding}
    (hb : d.Always S t fun row => b.Present S.domain row) :
    (b.toScalar d.columns).Meets Fault.Any fun x =>
      b.nullable = false → d.Always S t fun row => x.eval S.domain row ≠ none := by
  cases hx : b.toScalar d.columns with
  | error f => trivial
  | ok x =>
    intro hnullable T hT row hrow
    have hvalue := (hb T hT row hrow).toScalar (h.columns T hT row hrow)
    rw [hx] at hvalue
    exact hvalue hnullable

/-- A variable that is assigned the text of a binding may be bound in its place. -/
theorem Valued.rebind (h : d.Valued S t) {b : Binding}
    (hb : d.Always S t fun row => b.Present S.domain row) (ht : t <+: t') (v : Variable)
    (escaped : Bool) : (b.toScalar d.columns).Meets Fault.Any fun x =>
      (d.assign v x).Always S t'
        fun row => (Binding.value v b.shape b.nullable escaped).Present S.domain row := by
  refine (h.toScalar hb).mono fun x hx T hT row hrow hnullable => ?_
  have hinner := hrow.inside (inside_assign d v x)
  rw [always_assign S t' d v x T hT row hrow]
  exact ⟨hx hnullable T (ht.trans hT) row hinner,
    (hb T (ht.trans hT) row hinner).told hnullable⟩

/-! ### Steps -/

/-- A step that keeps what is said about nulls true. -/
def Upholds (S : Reading α) (t : VariableTable) (d : Draft) (x : DraftBuilder Draft) : Prop :=
  x.Builds Fault.Any t fun d' t' => d'.Valued S t' ∧ d.Inside d'

section Steps

variable {x : DraftBuilder Draft} {f : Draft → DraftBuilder Draft} {name : String} {b : Binding}

theorem upholds_pure (h : d'.Valued S t) (hd : d.Inside d') : d.Upholds S t (pure d') :=
  builds_pure ⟨h, hd⟩

theorem Upholds.bind (h : d.Upholds S t x)
    (hf : ∀ d' t', t <+: t' → d'.Valued S t' → d.Inside d' → d'.Upholds S t' (f d')) :
    d.Upholds S t (x >>= f) := by
  refine Builds.bind h fun d' t' ht hd' => ?_
  exact (hf d' t' ht hd'.1 hd'.2).mono fun _ _ _ hd => ⟨hd.1, hd'.2.trans hd.2⟩

/-- A step from a draft that has the given one inside. -/
theorem Upholds.of_inside (hd : d.Inside d') (h : d'.Upholds S t x) : d.Upholds S t x :=
  h.mono fun _ _ _ h => ⟨h.1, hd.trans h.2⟩

/-- The common binding of two is one of them, or may be null. -/
theorem merge_builds_valued (h : d.Valued S t) {existing new : Binding}
    (hexisting : d.Always S t fun row => existing.Present S.domain row)
    (hnew : d.Always S t fun row => new.Present S.domain row) :
    (d.merge existing new).Builds Fault.Any t fun r t' => (r.1.Valued S t' ∧ d.Inside r.1) ∧
      r.1.Always S t' fun row => r.2.Present S.domain row := by
  unfold merge
  split
  · exact builds_pure ⟨⟨h, .refl d⟩, hexisting⟩
  · split
    · exact builds_pure ⟨⟨h, .refl d⟩, hnew⟩
    · refine builds_get_bind <| builds_lift_bind (Result.meets_any _) fun x _ =>
        builds_lift_bind (Result.meets_any _) fun y _ => builds_fresh_bind <| builds_pure ?_
      refine ⟨⟨h.assign (List.prefix_append t _) _ _, inside_assign d _ _⟩, ?_⟩
      intro _ _ _ _ hnullable
      cases hnullable

theorem bind_upholds (h : d.Valued S t) (name : String)
    (hb : d.Always S t fun row => b.Present S.domain row) : d.Upholds S t (d.bind name b) := by
  unfold bind
  split
  · exact upholds_pure (h.setBinding name hb) (inside_setBinding d name b)
  · rename_i existing hlookup
    refine builds_lift_bind (Result.meets_any _) fun c _ => ?_
    have hinside := inside_addFilter d c
    refine Upholds.of_inside hinside ?_
    have hexisting := (h.bindings _ (mem_of_lookup hlookup)).mono (List.prefix_refl t) hinside
    refine (merge_builds_valued (h.addFilter c) hexisting
      (hb.mono (List.prefix_refl t) hinside)).bind fun r t' ht hr => ?_
    obtain ⟨d', merged⟩ := r
    obtain ⟨⟨hvalued, hinside'⟩, hmerged⟩ := hr
    exact builds_pure ⟨hvalued.setBinding name hmerged,
      hinside'.trans (inside_setBinding d' name merged)⟩

theorem bindAll_upholds {bs : Bindings} (h : d.Valued S t)
    (hbs : ∀ e ∈ bs, d.Always S t fun row => e.2.Present S.domain row) :
    d.Upholds S t (bindAll d bs) := by
  induction bs generalizing d t with
  | nil => exact upholds_pure h (.refl d)
  | cons e bs ih =>
    obtain ⟨name, b⟩ := e
    rw [List.forall_mem_cons] at hbs
    refine (bind_upholds h name hbs.1).bind fun d' t' ht hvalued hinside => ?_
    exact ih hvalued fun e he => (hbs.2 e he).mono ht hinside

/-- The text of a pattern is null only where a column is. -/
theorem always_term (S : Reading α) (t : VariableTable) (d : Draft) (b : BoundTerm) :
    d.Always S t fun row => (Binding.term b).Present S.domain row :=
  fun _ _ _ _ => trivial

theorem addTerms_upholds {c : Candidate} {positions : List Position} (h : d.Valued S t) :
    d.Upholds S t (addTerms c d positions) := by
  induction positions generalizing d t with
  | nil => exact upholds_pure h (.refl d)
  | cons p positions ih =>
    rw [addTerms]
    split
    · rename_i name _
      exact (bind_upholds h name (always_term S t d (c.term p))).bind
        fun d' t' _ hvalued _ => ih hvalued
    · split
      · refine builds_lift_bind (Result.meets_any _) fun condition _ => ?_
        exact Upholds.of_inside (inside_addFilter d condition) (ih (h.addFilter condition))
      · exact ih h

theorem addJoins_valued {joins : List ((Nat × String) × (Nat × String))} (h : d.Valued S t) :
    (addJoins d joins).Meets Fault.Any fun d' => d'.Valued S t ∧ d.Inside d' := by
  induction joins generalizing d with
  | nil => exact ⟨h, .refl d⟩
  | cons j joins ih =>
    obtain ⟨child, parent⟩ := j
    refine (Result.meets_any _).bind fun v _ => (Result.meets_any _).bind fun w _ => ?_
    exact (ih (h.addFilter _)).mono fun _ hd' => ⟨hd'.1, (inside_addFilter d _).trans hd'.2⟩

/-! ### Tables -/

theorem inside_addRow (d : Draft) (r : Nat × LogicalTable) : d.Inside (d.addRow r) := by
  unfold addRow
  split
  · exact .refl d
  · refine ⟨fun table htable => ?_, List.Subset.refl _, List.Subset.refl _, List.Subset.refl _⟩
    exact ⟨table, List.mem_append_left _ htable, rfl, List.Subset.refl _⟩

theorem Valued.addRow (h : d.Valued S t) {r : Nat × LogicalTable} (hr : r ∈ S.rows) :
    (d.addRow r).Valued S t := by
  have hinside := inside_addRow d r
  unfold Draft.addRow at hinside ⊢
  split at hinside
  · rename_i hread
    rw [if_pos hread]
    exact h
  · rename_i hread
    rw [if_neg hread]
    refine ⟨fun table htable => ?_, h.columns.mono (List.prefix_refl t) hinside,
      fun e he => (h.bindings e he).mono (List.prefix_refl t) hinside⟩
    obtain htable | htable := List.mem_append.mp htable
    · exact h.rows table htable
    · obtain rfl := List.mem_singleton.mp htable
      exact ⟨r, hr, rfl, rfl⟩

theorem Valued.addRows (h : d.Valued S t) {rows : List (Nat × LogicalTable)}
    (hrows : rows ⊆ S.rows) : (rows.foldl Draft.addRow d).Valued S t ∧
      d.Inside (rows.foldl Draft.addRow d) := by
  induction rows generalizing d with
  | nil => exact ⟨h, .refl d⟩
  | cons r rows ih =>
    obtain ⟨hr, hrows⟩ := List.cons_subset.mp hrows
    obtain ⟨hvalued, hinside⟩ := ih (h.addRow hr) hrows
    exact ⟨hvalued, (inside_addRow d r).trans hinside⟩

/-- The draft that reads a column into a variable, without a guard against nulls. -/
def withColumn (d : Draft) (n : Nat) (name : String) (v : Variable) : Draft :=
  { d with columns := d.columns ++ [((n, name), v)] }.addTableVariable n v

section Columns

variable {n : Nat} {name : String} {v : Variable} {table : LogicalTable}

theorem inside_withColumn (d : Draft) (n : Nat) (name : String) (v : Variable) :
    d.Inside (d.withColumn n name v) := by
  refine ⟨fun table htable => ⟨_, List.mem_map_of_mem htable, ?_, ?_⟩, List.Subset.refl _,
    List.Subset.refl _, List.Subset.refl _⟩
  · split <;> rfl
  · split
    · exact List.subset_append_left _ _
    · exact List.Subset.refl _

/-- The new variable is read from the table of its row. -/
theorem exists_table_withColumn (name : String) (v : Variable) (hn : n ∈ d.tables.map (·.row)) :
    ∃ table ∈ d.tables, table.row = n ∧ ∃ table' ∈ (d.withColumn n name v).tables,
      table'.source = table.source ∧ v ∈ table'.vars := by
  obtain ⟨table, htable, hrow⟩ := List.mem_map.mp hn
  refine ⟨table, htable, hrow, _, List.mem_map_of_mem htable, ?_⟩
  rw [if_pos hrow]
  exact ⟨rfl, List.mem_append_right _ List.mem_cons_self⟩

theorem Valued.rows_withColumn (h : d.Valued S t) :
    ∀ table ∈ (d.withColumn n name v).tables,
      ∃ r ∈ S.rows, r.1 = table.row ∧ r.2.source = table.source := by
  intro table htable
  obtain ⟨old, hold, rfl⟩ := List.mem_map.mp htable
  obtain ⟨r, hr, hnumber, hsource⟩ := h.rows old hold
  refine ⟨r, hr, ?_⟩
  split <;> exact ⟨hnumber, hsource⟩

/-- A column has a value where the draft that reads it guards it, or its table declares it so. -/
theorem Valued.column_ne_none (h : d.Valued S t) (hr : (n, table) ∈ S.rows)
    (hn : n ∈ d.tables.map (·.row)) (hinside : (d.withColumn n name t.length).Inside d')
    (hguard : table.isNullable name = true → .notNull t.length ∈ d'.filters) :
    d'.Always S (t ++ [⟨.column name, table.columnType name, table.isNullable name⟩])
      fun row => row t.length ≠ none := by
  intro T hT row hrow
  obtain ⟨read, hread, hnumber, read', hread', hsource, hv⟩ :=
    exists_table_withColumn name t.length hn
  cases hnullable : table.isNullable name with
  | true =>
    refine hrow.guards _ (hinside.tableVars ?_) (hguard hnullable)
    exact List.mem_flatMap.mpr ⟨read', hread', hv⟩
  | false =>
    obtain ⟨r, hrows, hrow', hsource'⟩ := h.rows read hread
    obtain rfl := S.single r hrows (n, table) hr (hrow'.trans hnumber)
    obtain ⟨values, hvalues, hvalue⟩ := (hrow.inside hinside).tables read' hread'
    rw [hvalue _ hv, VariableTable.row, VariableTable.info_of_prefix hT]
    exact S.keeps (n, table) hr values (hsource'.trans hsource.symm ▸ hvalues) name hnullable

/-- A draft that reads one more column, and may guard it. -/
theorem Valued.readColumn (h : d.Valued S t) (hr : (n, table) ∈ S.rows)
    (hn : n ∈ d.tables.map (·.row)) (name : String) {filters : List Condition}
    (hfilters : d.filters ⊆ filters)
    (hguard : table.isNullable name = true → .notNull t.length ∈ filters) :
    Valued S (t ++ [⟨.column name, table.columnType name, table.isNullable name⟩])
      { d.withColumn n name t.length with filters } := by
  have ht := List.prefix_append t [⟨.column name, table.columnType name, table.isNullable name⟩]
  have hread : (d.withColumn n name t.length).Inside
      { d.withColumn n name t.length with filters } :=
    .of_tables rfl (List.Subset.refl _) (List.Subset.refl _) hfilters
  have hinside := (inside_withColumn d n name t.length).trans hread
  refine ⟨h.rows_withColumn, fun T hT row hrow => ?_, fun e he => ?_⟩
  · refine List.forall_mem_append.mpr ⟨?_, List.forall_mem_singleton.mpr ?_⟩
    · exact h.columns.mono ht hinside T hT row hrow
    · exact h.column_ne_none hr hn hread hguard T hT row hrow
  · exact (h.bindings e he).mono ht hinside

theorem addColumn_upholds (h : d.Valued S t) (hr : (n, table) ∈ S.rows)
    (hn : n ∈ d.tables.map (·.row)) (name : String) :
    (d.addColumn n table name).Builds Fault.Any t fun d' t' =>
      (d'.Valued S t' ∧ d.Inside d') ∧ d'.tables.map (·.row) = d.tables.map (·.row) := by
  unfold addColumn
  split
  · exact builds_pure ⟨⟨h, .refl d⟩, rfl⟩
  · refine builds_fresh_bind (builds_pure ?_)
    have hinside := inside_withColumn d n name t.length
    have hrows := rows_addTableVariable d n t.length
    split
    · have hguarded := h.readColumn hr hn name
        (List.subset_append_left d.filters [.notNull t.length])
        fun _ => List.mem_append_right _ List.mem_cons_self
      exact ⟨⟨hguarded, hinside.trans (inside_addFilter _ _)⟩, hrows⟩
    · rename_i hnullable
      have hread := h.readColumn hr hn name (List.Subset.refl d.filters)
        fun hnull => absurd hnull hnullable
      exact ⟨⟨hread, hinside⟩, hrows⟩

theorem addColumns_upholds {rows : List (Nat × LogicalTable)} {columns : List (Nat × String)}
    (h : d.Valued S t) (hrows : rows ⊆ S.rows)
    (htables : ∀ c ∈ columns, c.1 ∈ d.tables.map (·.row)) :
    d.Upholds S t (addColumns rows d columns) := by
  induction columns generalizing d t with
  | nil => exact upholds_pure h (.refl d)
  | cons column columns ih =>
    obtain ⟨n, name⟩ := column
    rw [List.forall_mem_cons] at htables
    rw [addColumns]
    split
    · rename_i table htable
      refine (addColumn_upholds h (hrows (mem_of_lookup htable)) htables.1 name).bind
        fun d' t' _ hd' => ?_
      obtain ⟨⟨hvalued, hinside⟩, hsame⟩ := hd'
      exact Upholds.of_inside hinside (ih hvalued (hsame ▸ htables.2))
    · exact builds_throw trivial

end Columns

theorem addCandidate_upholds (h : d.Valued S t) {c : Candidate} (hc : c.rows ⊆ S.rows) :
    d.Upholds S t (d.addCandidate c) := by
  obtain ⟨hvalued, hinside⟩ := h.addRows hc
  have htables : ∀ column ∈ c.columns,
      column.1 ∈ (c.rows.foldl Draft.addRow d).tables.map (·.row) := fun column hcolumn =>
    mem_rows_addRows.mpr (.inr (Candidate.row_mem_columns hcolumn))
  refine Upholds.of_inside hinside ((addColumns_upholds hvalued hc htables).bind ?_)
  intro d' t' _ hvalued' hinside'
  refine builds_lift_bind (addJoins_valued hvalued') fun d'' hd'' => ?_
  exact Upholds.of_inside hd''.2 (addTerms_upholds hd''.1)

/-! ### Expressions -/

/-- The value of an expression is null only where it is said that it may be. -/
theorem Valued.value (h : d.Valued S t) (t' : VariableTable) (names : List String)
    (e : Expression) : (e.value (d.scope t' names)).Meets Fault.Any fun v =>
      d.Always S t fun row => v.Present S.domain row := by
  cases hv : e.value (d.scope t' names) with
  | error f => trivial
  | ok v =>
    intro T hT row hrow
    have hvalue := Expression.value_present (h.scope t' names T hT row hrow) e
    rwa [hv] at hvalue

theorem extend_upholds (h : d.Valued S t) (names : List String) (name : String)
    (e : Expression) : d.Upholds S t (d.extend names name e) := by
  unfold extend
  refine builds_get_bind ?_
  simp only
  split
  · exact builds_throw trivial
  · split
    · rename_i b hb
      have hb : ∃ other, (other, b) ∈ d.bindings := by
        split at hb
        · exact ⟨_, (List.mem_filter.mp (mem_of_lookup hb)).1⟩
        · cases hb
      obtain ⟨other, hb⟩ := hb
      exact bind_upholds h name (h.bindings (other, b) hb)
    · refine builds_lift_bind (h.value t names e) fun v hv => ?_
      split
      · exact upholds_pure h (.refl d)
      · refine builds_fresh_bind ?_
        have ht := List.prefix_append t [⟨.derived, v.type, v.nullable⟩]
        have hinside := inside_assign d t.length v.scalar
        refine Upholds.of_inside hinside (bind_upholds (h.assign ht _ _) name ?_)
        intro T hT row hrow hnullable
        rw [always_assign S _ d _ _ T hT row hrow]
        exact hv T (ht.trans hT) row (hrow.inside hinside) hnullable

/-- An output that is said not to be null is not null. -/
theorem project_builds_valued {names : List String} (h : d.Valued S t) :
    (d.project names).Builds Fault.Any t fun r t' => (r.1.Valued S t' ∧ d.Inside r.1) ∧
      ∀ o ∈ r.2, (t'.info o.2).nullable = false → r.1.Always S t' fun row => row o.2 ≠ none := by
  induction names generalizing d t with
  | nil => exact builds_pure ⟨⟨h, .refl d⟩, fun _ ho => absurd ho List.not_mem_nil⟩
  | cons name names ih =>
    have hstep : ∀ (x : Scalar) (info : VariableInfo),
        (info.nullable = false → d.Always S t fun row => x.eval S.domain row ≠ none) →
        DraftBuilder.Builds Fault.Any t (fun r t' => (r.1.Valued S t' ∧ d.Inside r.1) ∧
          ∀ o ∈ r.2, (t'.info o.2).nullable = false →
            r.1.Always S t' fun row => row o.2 ≠ none) (do
              let v ← freshVariable info
              let r ← project (d.assign v x) names
              return (r.1, (name, v) :: r.2)) := by
      intro x info hx
      have ht := List.prefix_append t [info]
      refine builds_fresh_bind ((ih (h.assign ht t.length x)).bind fun r t' ht' hr => ?_)
      obtain ⟨⟨hvalued, hinside⟩, houtputs⟩ := hr
      refine builds_pure ⟨⟨hvalued, (inside_assign d _ x).trans hinside⟩,
        List.forall_mem_cons.mpr ⟨fun hnullable T hT row hrow => ?_, houtputs⟩⟩
      rw [VariableTable.info_of_prefix ht'] at hnullable
      have hinner := hrow.inside hinside
      rw [always_assign S t d t.length x T ((ht.trans ht').trans hT) row hinner]
      exact hx hnullable T ((ht.trans ht').trans hT) row (hinner.inside (inside_assign d _ x))
    rw [project]
    refine builds_get_bind ?_
    dsimp only
    split
    · rename_i b hb
      refine builds_lift_bind (h.toScalar (h.bindings _ (mem_of_lookup hb))) fun x hx => ?_
      exact hstep x _ hx
    · exact hstep .null _ fun hnullable => by cases hnullable

end Steps

end Draft

end VirtualGraph
