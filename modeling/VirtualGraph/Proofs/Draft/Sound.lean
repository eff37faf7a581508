import Mathlib.Data.List.Nodup
import VirtualGraph.Draft.Basic
import VirtualGraph.Proofs.Draft.Reads

/-!
# Sound drafts

The invariant of a block under construction. Every step of the construction keeps it, adds
variables only at the end of the table, and never loses a variable or a column that a binding may
read. None of the steps fails, except where an expression cannot be compiled.
-/

namespace VirtualGraph

namespace DraftBuilder

variable {α β : Type} {allowed : Fault → Prop} {t t' : VariableTable}
variable {post : α → VariableTable → Prop} {post' : β → VariableTable → Prop}

/-- From a table of variables, a builder adds variables at its end and gives a result with a
property, or has a fault of an allowed kind. -/
def Builds (allowed : Fault → Prop) (t : VariableTable) (post : α → VariableTable → Prop)
    (x : DraftBuilder α) : Prop :=
  Result.Meets allowed (fun r => t <+: r.2 ∧ post r.1 r.2) (x.run t)

theorem builds_pure {a : α} (h : post a t) : (pure a : DraftBuilder α).Builds allowed t post :=
  ⟨List.prefix_refl t, h⟩

theorem builds_throw {f : Fault} (h : allowed f) :
    (throw f : DraftBuilder α).Builds allowed t post :=
  h

theorem Builds.bind {x : DraftBuilder α} {f : α → DraftBuilder β} (h : x.Builds allowed t post)
    (hf : ∀ a t', t <+: t' → post a t' → (f a).Builds allowed t' post') :
    (x >>= f).Builds allowed t post' := by
  refine Result.Meets.bind h fun r hr => ?_
  obtain ⟨htable, ha⟩ := hr
  exact (hf r.1 r.2 htable ha).mono fun _ h => ⟨htable.trans h.1, h.2⟩

theorem Builds.mono {post' : α → VariableTable → Prop} {x : DraftBuilder α}
    (h : x.Builds allowed t post) (hpost : ∀ a t', t <+: t' → post a t' → post' a t') :
    x.Builds allowed t post' :=
  Result.Meets.mono h fun r hr => ⟨hr.1, hpost r.1 r.2 hr.1 hr.2⟩

theorem Builds.allow {allowed' : Fault → Prop} {x : DraftBuilder α} (h : x.Builds allowed t post)
    (hallowed : ∀ f, allowed f → allowed' f) : x.Builds allowed' t post :=
  Result.Meets.allow h hallowed

theorem Builds.of_map {x : DraftBuilder α} {f : α → β} (h : (f <$> x).Builds allowed t post') :
    x.Builds allowed t fun a t' => post' (f a) t' := by
  rw [Builds, StateT.run_map] at h
  rw [Builds]
  cases hx : x.run t with
  | error e =>
    rw [hx] at h
    exact h
  | ok r =>
    rw [hx] at h
    exact h

theorem Builds.and {post' : α → VariableTable → Prop} {x : DraftBuilder α}
    (h : x.Builds allowed t post) (h' : x.Builds Fault.Any t post') :
    x.Builds allowed t fun a t' => post a t' ∧ post' a t' :=
  (Result.Meets.and h h').mono fun _ hr => ⟨hr.1.1, hr.1.2, hr.2.2⟩

/-- What never fails meets any condition on faults. -/
theorem Builds.of_excluded {x : DraftBuilder α} (h : x.Builds Fault.Excluded t post) :
    x.Builds allowed t post :=
  Result.Meets.of_excluded h

theorem builds_get_bind {f : VariableTable → DraftBuilder β} (h : (f t).Builds allowed t post') :
    (get >>= f).Builds allowed t post' :=
  h

theorem builds_lift_bind {x : Result α} {f : α → DraftBuilder β} {P : α → Prop}
    (hx : x.Meets allowed P) (h : ∀ a, P a → (f a).Builds allowed t post') :
    ((liftM x : DraftBuilder α) >>= f).Builds allowed t post' := by
  cases x with
  | error e => exact hx
  | ok a => exact h a hx

theorem builds_fresh_bind {info : VariableInfo} {f : Variable → DraftBuilder β}
    (h : (f t.length).Builds allowed (t ++ [info]) post') :
    (freshVariable info >>= f).Builds allowed t post' :=
  Result.Meets.mono h fun _ hr => ⟨(List.prefix_append t [info]).trans hr.1, hr.2⟩

end DraftBuilder

theorem VariableTable.IsColumn.mono {t t' : VariableTable} {v : Variable} (h : t.IsColumn v)
    (ht : t <+: t') : t'.IsColumn v := by
  obtain ⟨i, name, hi, hkind⟩ := h
  obtain ⟨new, rfl⟩ := ht
  refine ⟨i, name, ?_, hkind⟩
  rw [List.getElem?_append_left (List.getElem?_eq_some_iff.mp hi).1]
  exact hi

theorem Block.Regular.mono {t t' : VariableTable} {b : Block} (h : b.Regular t) (ht : t <+: t') :
    b.Regular t' :=
  { h with tableColumns := fun source vs hs v hv => (h.tableColumns source vs hs v hv).mono ht }

namespace Draft

/-- The variables of the columns of a draft. -/
def tableVars (d : Draft) : List Variable := d.tables.flatMap (·.vars)

/-- The variables that the sources of a draft bind. -/
def sourceVars (d : Draft) : List Variable := d.tableVars ++ d.sources.flatMap Source.produced

/-- The variables that the sources and assignments of a draft bind. -/
def vars (d : Draft) : List Variable := d.sourceVars ++ d.assignments.map (·.target)

/-- The invariant of a draft. -/
structure Sound (t : VariableTable) (d : Draft) : Prop where
  taken : ∀ v ∈ d.vars, v < t.length
  once : d.vars.Nodup
  rows : (d.tables.map (·.row)).Nodup
  tableColumns : ∀ v ∈ d.tableVars, t.IsColumn v
  /-- Tables are kept apart from the other sources. -/
  noTables : ∀ source vs, .table source vs ∉ d.sources
  indexed : d.columns.Within d.tableVars
  wellScoped : ∀ s ∈ d.sources, s.Scoped
  below : ∀ s ∈ d.sources, ∀ b ∈ s.blocks, b.Everywhere (Block.Regular t)
  readBack : Source.ReadBack d.assignments d.tableVars d.sources
  assignments : Assignment.Scoped d.sourceVars d.assignments
  filters : Condition.referencedAll d.filters ⊆ d.vars
  bindings : ∀ e ∈ d.bindings, e.2.InScope d.columns d.vars

variable {t t' : VariableTable} {d d' d'' : Draft}

theorem sound_empty : empty.Sound t where
  taken := fun _ hv => absurd hv List.not_mem_nil
  once := List.nodup_nil
  rows := List.nodup_nil
  tableColumns := fun _ hv => absurd hv List.not_mem_nil
  noTables := fun _ _ => List.not_mem_nil
  indexed := fun _ he => absurd he List.not_mem_nil
  wellScoped := fun _ hs => absurd hs List.not_mem_nil
  below := fun _ hs => absurd hs List.not_mem_nil
  readBack := trivial
  assignments := trivial
  filters := List.nil_subset _
  bindings := fun _ he => absurd he List.not_mem_nil

theorem Sound.mono (h : d.Sound t) (ht : t <+: t') : d.Sound t' :=
  { h with
    taken := fun v hv => Nat.lt_of_lt_of_le (h.taken v hv) ht.length_le
    tableColumns := fun v hv => (h.tableColumns v hv).mono ht
    below := fun s hs b hb => (h.below s hs b hb).mono fun _ hr => hr.mono ht }

/-- The next variable of the table is new to the draft. -/
theorem Sound.fresh (h : d.Sound t) : t.length ∉ d.vars :=
  fun hv => Nat.lt_irrefl _ (h.taken _ hv)

theorem Sound.within (h : d.Sound t) : d.columns.Within d.vars := fun e he =>
  List.mem_append_left _ (List.mem_append_left _ (h.indexed e he))

theorem readBack_tables (as : List Assignment) (before : List Variable) (tables : List DraftTable) :
    Source.ReadBack as before (tables.map fun t => .table t.source t.vars) := by
  induction tables generalizing before with
  | nil => trivial
  | cons table tables ih => exact ⟨fun _ hon => (by cases hon), ih _⟩

theorem flatMap_produced_toBlock (exposed : List Variable) :
    (d.toBlock exposed).sources.flatMap Source.produced = d.sourceVars := by
  simp [toBlock, sourceVars, tableVars, List.flatMap_map, Source.produced]

theorem produced_toBlock (exposed : List Variable) : (d.toBlock exposed).produced = d.vars := by
  rw [Block.produced, flatMap_produced_toBlock]
  rfl

/-- A sound draft makes a well-built block. -/
theorem Sound.toBlock (h : d.Sound t) {exposed : List Variable} (hexposed : exposed ⊆ d.vars) :
    (d.toBlock exposed).WellBuilt t := by
  have hback : Source.ReadBack d.assignments [] (d.toBlock exposed).sources := by
    refine Source.readBack_append.mpr ⟨?_, ?_⟩
    · exact readBack_tables _ _ _
    · simpa [List.flatMap_map, Source.produced, tableVars] using h.readBack
  have hregular : (d.toBlock exposed).Regular t := by
    refine ⟨produced_toBlock exposed ▸ h.once, ?_, hback⟩
    intro source vs hs v hv
    obtain hs | hs := List.mem_append.mp hs
    · obtain ⟨table, htable, heq⟩ := List.mem_map.mp hs
      cases heq
      exact h.tableColumns v (List.mem_flatMap.mpr ⟨table, htable, hv⟩)
    · exact absurd hs (h.noTables source vs)
  constructor
  · have hsources := flatMap_produced_toBlock (d := d) exposed
    refine ⟨Source.scopedEach_iff.mpr fun s hs => ?_, ?_, ?_, ?_, ?_⟩
    · obtain hs | hs := List.mem_append.mp hs
      · obtain ⟨table, -, rfl⟩ := List.mem_map.mp hs
        trivial
      · exact h.wellScoped s hs
    · exact hsources ▸ h.assignments
    · exact hback.joinConditions
    · show Condition.referencedAll d.filters ⊆ (d.toBlock exposed).produced
      exact produced_toBlock exposed ▸ h.filters
    · show exposed ⊆ (d.toBlock exposed).produced
      exact produced_toBlock exposed ▸ hexposed
  · refine .intro hregular fun s hs b hb => ?_
    obtain hs | hs := List.mem_append.mp hs
    · obtain ⟨table, -, rfl⟩ := List.mem_map.mp hs
      exact absurd hb List.not_mem_nil
    · exact h.below s hs b hb

/-- What a draft keeps as it grows from a table of variables on: its variables and columns stay, and
further variables are new. -/
structure Grows (t : VariableTable) (d d' : Draft) : Prop where
  vars : d.vars ⊆ d'.vars
  fresh : ∀ v ∈ d'.vars, v ∈ d.vars ∨ t.length ≤ v
  columns : ∀ k, (d.columns.lookup k).isSome → (d'.columns.lookup k).isSome

theorem Grows.refl (t : VariableTable) (d : Draft) : d.Grows t d :=
  ⟨List.Subset.refl _, fun _ hv => .inl hv, fun _ h => h⟩

theorem Grows.of_eq (hvars : d'.vars = d.vars) (hcolumns : d'.columns = d.columns) :
    d.Grows t d' :=
  ⟨hvars ▸ List.Subset.refl _, fun _ hv => .inl (hvars ▸ hv), fun _ h => hcolumns ▸ h⟩

theorem Grows.trans (h : d.Grows t d') (ht : t <+: t') (h' : d'.Grows t' d'') : d.Grows t d'' where
  vars := List.Subset.trans h.vars h'.vars
  fresh := fun v hv => by
    obtain hv | hv := h'.fresh v hv
    · exact h.fresh v hv
    · exact .inr (Nat.le_trans ht.length_le hv)
  columns := fun k hk => h'.columns k (h.columns k hk)

end Draft

namespace Binding

variable {columns columns' : ColumnIndex} {vs vs' : List Variable} {b : Binding}

theorem InScope.mono (h : b.InScope columns vs)
    (hcolumns : ∀ k, (columns.lookup k).isSome → (columns'.lookup k).isSome) (hvs : vs ⊆ vs') :
    b.InScope columns' vs' := by
  cases b with
  | term t => exact fun s hs => hcolumns _ (h s hs)
  | value v shape nullable escaped => exact ⟨hvs h.1, List.Subset.trans h.2 hvs⟩

end Binding

namespace Bindings

theorem mem_insert {name : String} {b : Binding} {bs : Bindings} {e : String × Binding}
    (h : e ∈ insert name b bs) : e = (name, b) ∨ e ∈ bs := by
  induction bs with
  | nil => exact .inl (List.mem_singleton.mp h)
  | cons c bs ih =>
    rw [insert] at h
    split at h
    · simp only [List.mem_cons] at h ⊢
      tauto
    · split at h
      · exact List.mem_cons.mp h
      · simp only [List.mem_cons] at h ⊢
        tauto

end Bindings

namespace Draft

variable {t t' : VariableTable} {d d' d'' : Draft}

theorem Grows.inScope (h : d.Grows t d') {b : Binding} (hb : b.InScope d.columns d.vars) :
    b.InScope d'.columns d'.vars :=
  hb.mono h.columns h.vars

/-! ### Steps that take no variable -/

theorem Sound.addFilter (h : d.Sound t) {c : Condition} (hc : c.referenced ⊆ d.vars) :
    (d.addFilter c).Sound t :=
  { h with
    filters := by
      show Condition.referencedAll (d.filters ++ [c]) ⊆ d.vars
      rw [Condition.referencedAll_append]
      simpa [Condition.referencedAll] using ⟨h.filters, hc⟩ }

theorem grows_addFilter (t : VariableTable) (d : Draft) (c : Condition) :
    d.Grows t (d.addFilter c) :=
  .of_eq rfl rfl

theorem Sound.setBinding (h : d.Sound t) (name : String) {b : Binding}
    (hb : b.InScope d.columns d.vars) : (d.setBinding name b).Sound t :=
  { h with
    bindings := fun e he => by
      obtain rfl | he := Bindings.mem_insert he
      · exact hb
      · exact h.bindings e he }

theorem grows_setBinding (t : VariableTable) (d : Draft) (name : String) (b : Binding) :
    d.Grows t (d.setBinding name b) :=
  .of_eq rfl rfl

/-! ### Steps that add a variable -/

@[simp] theorem sourceVars_assign (d : Draft) (v : Variable) (x : Scalar) :
    (d.assign v x).sourceVars = d.sourceVars := rfl

theorem vars_assign (d : Draft) (v : Variable) (x : Scalar) :
    (d.assign v x).vars = d.vars ++ [v] := by
  simp [assign, vars, sourceVars, tableVars]

theorem Sound.assign (h : d.Sound t) {v : Variable} {x : Scalar} (hv : v ∉ d.vars)
    (htaken : v < t.length) (hx : x.referenced ⊆ d.vars) : (d.assign v x).Sound t := by
  have hsub : d.vars ⊆ (d.assign v x).vars := vars_assign d v x ▸ List.subset_append_left _ _
  exact { h with
    taken := fun w hw => by
      rw [vars_assign, List.mem_append, List.mem_singleton] at hw
      obtain hw | rfl := hw
      · exact h.taken w hw
      · exact htaken
    once := by
      rw [vars_assign]
      exact h.once.append (List.nodup_singleton v) (List.disjoint_singleton.mpr hv)
    readBack := h.readBack.mono (List.subset_append_left _ _) (List.Subset.refl _)
    assignments := by
      refine Assignment.scoped_append.mpr ⟨h.assignments, ?_, ?_, trivial⟩
      · exact fun w hw => by simpa [vars, or_comm] using hx hw
      · simpa [vars, or_comm] using hv
    filters := List.Subset.trans h.filters hsub
    bindings := fun e he => (h.bindings e he).mono (fun _ hk => hk) hsub }

theorem grows_assign (d : Draft) {v : Variable} (x : Scalar) (hv : t.length ≤ v) :
    d.Grows t (d.assign v x) where
  vars := vars_assign d v x ▸ List.subset_append_left _ _
  fresh := fun w hw => by
    rw [vars_assign, List.mem_append, List.mem_singleton] at hw
    obtain hw | rfl := hw
    · exact .inl hw
    · exact .inr hv
  columns := fun _ hk => hk

theorem sourceVars_addSource (d : Draft) (s : Source) :
    (d.addSource s).sourceVars = d.sourceVars ++ s.produced := by
  simp [addSource, sourceVars, tableVars]

theorem mem_vars_addSource {s : Source} {v : Variable} :
    v ∈ (d.addSource s).vars ↔ v ∈ d.vars ∨ v ∈ s.produced := by
  rw [vars, vars, sourceVars_addSource]
  simp only [List.mem_append]
  exact or_right_comm

theorem Sound.addSource (h : d.Sound t) {s : Source} (hs : s.Scoped)
    (hnew : ∀ v ∈ s.produced, v ∉ d.vars ∧ v < t.length) (honce : s.produced.Nodup)
    (htable : ∀ source vs, s ≠ .table source vs)
    (hbelow : ∀ b ∈ s.blocks, b.Everywhere (Block.Regular t))
    (hon : ∀ on ∈ s.on?, Condition.referencedAll on ⊆ d.vars ++ s.produced) :
    (d.addSource s).Sound t := by
  have hsub : d.vars ⊆ (d.addSource s).vars := fun v hv => mem_vars_addSource.mpr (.inl hv)
  exact { h with
    taken := fun v hv => (mem_vars_addSource.mp hv).elim (h.taken v) fun hv => (hnew v hv).2
    once := by
      have hdisjoint : d.vars.Disjoint s.produced := fun v hv hs => (hnew v hs).1 hv
      refine List.Perm.nodup ?_ (h.once.append honce hdisjoint)
      rw [vars, vars, sourceVars_addSource, List.append_assoc, List.append_assoc]
      exact List.perm_append_comm.append_left _
    noTables := fun source vs hmem => by
      obtain hmem | hmem := List.mem_append.mp hmem
      · exact h.noTables source vs hmem
      · exact htable source vs (List.mem_singleton.mp hmem).symm
    wellScoped := fun r hr => by
      obtain hr | hr := List.mem_append.mp hr
      · exact h.wellScoped r hr
      · exact List.mem_singleton.mp hr ▸ hs
    below := fun r hr => by
      obtain hr | hr := List.mem_append.mp hr
      · exact h.below r hr
      · exact List.mem_singleton.mp hr ▸ hbelow
    readBack := by
      refine Source.readBack_append.mpr ⟨h.readBack, fun on hmem v hv => ?_, trivial⟩
      obtain hv | hv := List.mem_append.mp (hon on hmem hv)
      · exact (h.assignments.determined hv).mono (List.Subset.refl _) (List.subset_append_left _ _)
      · exact .bound (List.mem_append_right _ hv)
    assignments := by
      rw [sourceVars_addSource]
      refine h.assignments.mono (List.subset_append_left _ _) fun a ha => ?_
      rw [List.mem_append, not_or]
      have hmem : a.target ∈ d.vars := List.mem_append_right _ (List.mem_map_of_mem ha)
      exact ⟨h.assignments.target_not_mem ha, fun hs => (hnew _ hs).1 hmem⟩
    filters := List.Subset.trans h.filters hsub
    bindings := fun e he => (h.bindings e he).mono (fun _ hk => hk) hsub }

theorem grows_addSource (d : Draft) {s : Source} (hnew : ∀ v ∈ s.produced, t.length ≤ v) :
    d.Grows t (d.addSource s) where
  vars := fun _ hv => mem_vars_addSource.mpr (.inl hv)
  fresh := fun v hv => (mem_vars_addSource.mp hv).imp id (hnew v)
  columns := fun _ hk => hk

theorem perm_sourceVars_withTables {tables : List DraftTable} {columns : ColumnIndex}
    {new : List Variable} (h : List.Perm (tables.flatMap (·.vars)) (new ++ d.tableVars)) :
    List.Perm { d with tables, columns }.sourceVars (new ++ d.sourceVars) := by
  rw [sourceVars, sourceVars, ← List.append_assoc]
  exact h.append_right _

theorem perm_vars_withTables {tables : List DraftTable} {columns : ColumnIndex}
    {new : List Variable} (h : List.Perm (tables.flatMap (·.vars)) (new ++ d.tableVars)) :
    List.Perm { d with tables, columns }.vars (new ++ d.vars) := by
  rw [vars, vars, ← List.append_assoc]
  exact (perm_sourceVars_withTables h).append_right _

/-- New columns may be read from the tables of a draft. -/
theorem Sound.withTables (h : d.Sound t) {tables : List DraftTable} {columns : ColumnIndex}
    {new : List Variable} (hrows : (tables.map (·.row)).Nodup)
    (hperm : List.Perm (tables.flatMap (·.vars)) (new ++ d.tableVars))
    (honce : new.Nodup) (hnew : ∀ v ∈ new, v ∉ d.vars ∧ v < t.length ∧ t.IsColumn v)
    (hindexed : columns.Within (tables.flatMap (·.vars)))
    (hcolumns : ∀ k, (d.columns.lookup k).isSome → (columns.lookup k).isSome) :
    Sound t { d with tables, columns } := by
  have hsources : List.Perm { d with tables, columns }.sourceVars (new ++ d.sourceVars) :=
    perm_sourceVars_withTables hperm
  have hvars : List.Perm { d with tables, columns }.vars (new ++ d.vars) :=
    perm_vars_withTables hperm
  have hsub : d.vars ⊆ { d with tables, columns }.vars := fun v hv =>
    hvars.mem_iff.mpr (List.mem_append_right _ hv)
  exact { h with
    taken := fun v hv => by
      obtain hv | hv := List.mem_append.mp (hvars.mem_iff.mp hv)
      · exact (hnew v hv).2.1
      · exact h.taken v hv
    once := hvars.nodup_iff.mpr (honce.append h.once fun v hv => (hnew v hv).1)
    rows := hrows
    tableColumns := fun v hv => by
      obtain hv | hv := List.mem_append.mp (hperm.mem_iff.mp hv)
      · exact (hnew v hv).2.2
      · exact h.tableColumns v hv
    indexed := hindexed
    readBack := h.readBack.mono (List.Subset.refl _) fun v hv =>
      hperm.mem_iff.mpr (List.mem_append_right _ hv)
    assignments := by
      refine h.assignments.mono (fun v hv => hsources.mem_iff.mpr (List.mem_append_right _ hv)) ?_
      intro a ha
      rw [hsources.mem_iff, List.mem_append, not_or]
      have hmem : a.target ∈ d.vars := List.mem_append_right _ (List.mem_map_of_mem ha)
      exact ⟨fun hv => (hnew _ hv).1 hmem, h.assignments.target_not_mem ha⟩
    filters := List.Subset.trans h.filters hsub
    bindings := fun e he => (h.bindings e he).mono hcolumns hsub }

theorem tableVars_addRow (d : Draft) (row : Nat × LogicalTable) :
    (d.addRow row).tableVars = d.tableVars := by
  unfold addRow
  split
  · rfl
  · simp [tableVars]

/-- Reading one more row takes no variable. -/
theorem Sound.addRow (h : d.Sound t) (row : Nat × LogicalTable) : (d.addRow row).Sound t := by
  unfold Draft.addRow
  split
  · exact h
  · rename_i hrow
    have hvars : (d.tables ++ [DraftTable.mk row.1 row.2.source []]).flatMap (·.vars) =
        [] ++ d.tableVars := by
      simp [tableVars]
    refine h.withTables ?_ (.of_eq hvars) List.nodup_nil
      (fun _ hv => absurd hv List.not_mem_nil) (fun e he => hvars ▸ h.indexed e he) fun _ hk => hk
    rw [List.map_append]
    refine h.rows.append (List.nodup_singleton _) (List.disjoint_singleton.mpr ?_)
    simpa using hrow

theorem vars_addRow (d : Draft) (row : Nat × LogicalTable) : (d.addRow row).vars = d.vars := by
  have hvars := tableVars_addRow d row
  unfold vars sourceVars
  rw [hvars]
  unfold addRow
  split <;> rfl

theorem grows_addRow (t : VariableTable) (d : Draft) (row : Nat × LogicalTable) :
    d.Grows t (d.addRow row) := by
  refine .of_eq (vars_addRow d row) ?_
  unfold addRow
  split <;> rfl

theorem mem_rows_addRow {row : Nat × LogicalTable} {n : Nat} :
    n ∈ (d.addRow row).tables.map (·.row) ↔ n ∈ d.tables.map (·.row) ∨ n = row.1 := by
  unfold addRow
  split
  · rename_i h
    simp only [List.any_eq_true, decide_eq_true_eq] at h
    obtain ⟨table, htable, hrow⟩ := h
    constructor
    · exact .inl
    · rintro (hn | rfl)
      · exact hn
      · exact hrow ▸ List.mem_map_of_mem htable
  · simp

theorem mem_rows_addRows {rows : List (Nat × LogicalTable)} {n : Nat} :
    n ∈ (rows.foldl addRow d).tables.map (·.row) ↔
      n ∈ d.tables.map (·.row) ∨ n ∈ rows.map (·.1) := by
  induction rows generalizing d with
  | nil => simp
  | cons row rows ih =>
    rw [List.foldl_cons, ih, mem_rows_addRow, List.map_cons, List.mem_cons, or_assoc]

theorem Sound.addRows (h : d.Sound t) (rows : List (Nat × LogicalTable)) :
    (rows.foldl Draft.addRow d).Sound t ∧ d.Grows t (rows.foldl Draft.addRow d) := by
  induction rows generalizing d with
  | nil => exact ⟨h, .refl t d⟩
  | cons row rows ih =>
    obtain ⟨hsound, hgrows⟩ := ih (h.addRow row)
    exact ⟨hsound, (grows_addRow t d row).trans (List.prefix_refl t) hgrows⟩

/-- A variable is added to one table. -/
theorem perm_addTableVariable {tables : List DraftTable} {row : Nat} (v : Variable)
    (hrows : (tables.map (·.row)).Nodup) (hrow : row ∈ tables.map (·.row)) :
    List.Perm
      ((tables.map fun t => if t.row = row then { t with vars := t.vars ++ [v] } else t).flatMap
        (·.vars))
      ([v] ++ tables.flatMap (·.vars)) := by
  induction tables with
  | nil => exact absurd hrow List.not_mem_nil
  | cons table tables ih =>
    rw [List.map_cons, List.nodup_cons] at hrows
    rw [List.map_cons, List.flatMap_cons, List.flatMap_cons]
    by_cases hfirst : table.row = row
    · have hrest : ∀ t ∈ tables, t.row ≠ row := fun t ht heq =>
        hrows.1 (hfirst.trans heq.symm ▸ List.mem_map_of_mem ht)
      have hsame : (tables.map fun t =>
          if t.row = row then { t with vars := t.vars ++ [v] } else t) = tables :=
        (List.map_congr_left fun t ht => if_neg (hrest t ht)).trans (List.map_id' tables)
      rw [if_pos hfirst, hsame, ← List.append_assoc]
      exact List.perm_append_comm.append_right _
    · have hrow : row ∈ tables.map (·.row) :=
        (List.mem_cons.mp hrow).resolve_left (Ne.symm hfirst)
      rw [if_neg hfirst]
      refine ((ih hrows.2 hrow).append_left table.vars).trans ?_
      rw [← List.append_assoc, ← List.append_assoc]
      exact List.perm_append_comm.append_right _

end Draft

end VirtualGraph
