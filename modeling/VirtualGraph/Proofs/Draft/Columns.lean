import VirtualGraph.Proofs.Draft.Answers

/-!
# Answers of drafts that read columns

New rows come from tables that no other part of a draft reads, so each answer goes with each choice
of the rows. Their columns are read into fresh variables, and a column that may be null has a guard.
So the answers of the draft with the columns are pairs of an answer that it had and a choice of rows
that passes the guards.
-/

namespace VirtualGraph

/-- The values of a choice of rows, for the variables of the columns that are read. -/
def Row.ofChoice (new : ColumnIndex) (choice : RowChoice String) : Row String := fun v =>
  (new.find? (·.2 = v)).bind fun e => choice e.1.1 e.1.2

section Choices

variable {db : Database String} {rows : List (Nat × LogicalTable)} {new : ColumnIndex}
variable {choice : RowChoice String} {e : (Nat × String) × Variable}

/-- A choice has a row of each table. -/
theorem RowChoice.mem_all (hrows : (rows.map (·.1)).Nodup) (h : choice ∈ RowChoice.all db rows)
    {r : Nat × LogicalTable} (hr : r ∈ rows) : choice r.1 ∈ db r.2.source := by
  induction rows generalizing choice with
  | nil => exact absurd hr List.not_mem_nil
  | cons first rows ih =>
    obtain ⟨n, table⟩ := first
    rw [List.map_cons, List.nodup_cons] at hrows
    obtain ⟨columns, hcolumns, h⟩ := Multiset.mem_bind.mp h
    obtain ⟨rest, hrest, rfl⟩ := Multiset.mem_map.mp h
    obtain rfl | hr := List.mem_cons.mp hr
    · rwa [Function.update_self]
    · have hmem : r.1 ∈ rows.map (·.1) := List.mem_map_of_mem hr
      have hne : r.1 ≠ n := fun heq => hrows.1 (heq ▸ hmem)
      rw [Function.update_of_ne hne]
      exact ih hrows.2 hrest hr

theorem Row.ofChoice_of_mem (hnew : (new.map (·.2)).Nodup) (he : e ∈ new) :
    Row.ofChoice new choice e.2 = choice e.1.1 e.1.2 := by
  have hfind : new.find? (·.2 = e.2) = some e := by
    induction new with
    | nil => exact absurd he List.not_mem_nil
    | cons first new ih =>
      rw [List.map_cons, List.nodup_cons] at hnew
      obtain rfl | he := List.mem_cons.mp he
      · simp
      · have hne : first.2 ≠ e.2 := fun heq => hnew.1 (heq ▸ List.mem_map_of_mem he)
        rw [List.find?_cons_of_neg (by simpa using hne)]
        exact ih hnew.2 he
  rw [Row.ofChoice, hfind, Option.bind_some]

theorem Row.ofChoice_of_not_mem {v : Variable} (hv : v ∉ new.map (·.2)) :
    Row.ofChoice new choice v = none := by
  have hfind : new.find? (·.2 = v) = none := by
    refine List.find?_eq_none.mpr fun e he heq => hv ?_
    exact List.mem_map.mpr ⟨e, he, by simpa using heq⟩
  rw [Row.ofChoice, hfind, Option.bind_none]

/-- The tables of rows, each with the variables of the columns that are read from it. -/
def readTables (rows : List (Nat × LogicalTable)) (new : ColumnIndex) : List DraftTable :=
  rows.map fun r => ⟨r.1, r.2.source, (new.filter (·.1.1 = r.1)).map (·.2)⟩

theorem mem_vars_readTables {v : Variable} :
    v ∈ (readTables rows new).flatMap (·.vars) ↔ ∃ e ∈ new, e.1.1 ∈ rows.map (·.1) ∧ e.2 = v := by
  simp only [readTables, List.flatMap_map, List.mem_flatMap, List.mem_map, List.mem_filter,
    decide_eq_true_eq]
  constructor
  · rintro ⟨r, hr, e, ⟨he, hrow⟩, rfl⟩
    exact ⟨e, he, ⟨r, hr, hrow.symm⟩, rfl⟩
  · rintro ⟨e, he, ⟨r, hr, hrow⟩, rfl⟩
    exact ⟨r, hr, e, ⟨he, hrow.symm⟩, rfl⟩

/-- Joining the tables of rows extends a row by the choices of the rows. -/
theorem joinAll_readTables {T : VariableTable} (hrows : (rows.map (·.1)).Nodup)
    (hnew : (new.map (·.2)).Nodup) (hT : ∀ e ∈ new, (T.info e.2).kind = .column e.1.2)
    (row : Row String) :
    Source.joinAll Source.cross (Draft.tableInputs db T (readTables rows new)) row =
      (RowChoice.all db rows).map fun choice =>
        row.take ((readTables rows new).flatMap (·.vars)) (Row.ofChoice new choice) := by
  induction rows generalizing row with
  | nil => rfl
  | cons first rows ih =>
    obtain ⟨n, table⟩ := first
    rw [List.map_cons, List.nodup_cons] at hrows
    have hfirst : Draft.tableInputs db T (readTables ((n, table) :: rows) new) =
        (.table table.source ((new.filter (·.1.1 = n)).map (·.2)), (db table.source).map T.row) ::
          Draft.tableInputs db T (readTables rows new) := rfl
    rw [hfirst, Source.joinAll, RowChoice.all, Multiset.map_bind]
    simp only [Source.cross, Source.on?, Multiset.bind_map, Source.produced]
    refine Multiset.bind_congr fun columns _ => ?_
    rw [ih hrows.2, Multiset.map_map]
    refine Multiset.map_congr rfl fun choice _ => funext fun v => ?_
    show _ = Row.take row _ (Row.ofChoice new (Function.update choice n columns)) v
    by_cases hrest : v ∈ (readTables rows new).flatMap (·.vars)
    · have hmem := hrest
      obtain ⟨e, he, hrow, rfl⟩ := mem_vars_readTables.mp hmem
      have hne : e.1.1 ≠ n := fun heq => hrows.1 (heq ▸ hrow)
      have hall : e.2 ∈ (readTables ((n, table) :: rows) new).flatMap (·.vars) :=
        mem_vars_readTables.mpr ⟨e, he, List.mem_cons_of_mem _ hrow, rfl⟩
      rw [Row.take_of_mem hrest, Row.take_of_mem hall, Row.ofChoice_of_mem hnew he,
        Row.ofChoice_of_mem hnew he, Function.update_of_ne hne]
    · rw [Row.take_of_not_mem hrest]
      by_cases hv : v ∈ (new.filter (·.1.1 = n)).map (·.2)
      · have hmem := hv
        obtain ⟨e, he, rfl⟩ := List.mem_map.mp hmem
        obtain ⟨he, hrow⟩ := List.mem_filter.mp he
        have hrow : e.1.1 = n := by simpa using hrow
        have hall : e.2 ∈ (readTables ((n, table) :: rows) new).flatMap (·.vars) :=
          mem_vars_readTables.mpr ⟨e, he, hrow ▸ List.mem_cons_self, rfl⟩
        rw [Row.take_of_mem hv, Row.take_of_mem hall, Row.ofChoice_of_mem hnew he, hrow,
          Function.update_self, VariableTable.row, hT e he]
      · rw [Row.take_of_not_mem hv, Row.take_of_not_mem]
        intro hall
        obtain ⟨e, he, hrow, rfl⟩ := mem_vars_readTables.mp hall
        obtain hrow | hrow := List.mem_cons.mp hrow
        · exact hv (List.mem_map_of_mem (List.mem_filter.mpr ⟨he, by simpa using hrow⟩))
        · exact hrest (mem_vars_readTables.mpr ⟨e, he, hrow, rfl⟩)

end Choices

namespace Draft

open DraftBuilder

variable {E : Setting} {t T : VariableTable} {d d' : Draft} {vs : List Variable}
variable {rows : List (Nat × LogicalTable)} {new : ColumnIndex} {columns : List (Nat × String)}

/-- What is known about the variable of a column. -/
def columnInfo (rows : List (Nat × LogicalTable)) (column : Nat × String) : VariableInfo :=
  match rows.lookup column.1 with
  | some table => ⟨.column column.2, table.columnType column.2, table.isNullable column.2⟩
  | none => ⟨.column column.2, .string, false⟩

/-- The guards of the columns that may be null. -/
def nullGuards (rows : List (Nat × LogicalTable)) (new : ColumnIndex) : List Condition :=
  (new.filter fun e => (columnInfo rows e.1).nullable).map fun e => .notNull e.2

/-- A draft that also reads columns of given rows. -/
def reading (d : Draft) (rows : List (Nat × LogicalTable)) (new : ColumnIndex) : Draft :=
  { d with
    tables := d.tables ++ readTables rows new
    columns := d.columns ++ new
    filters := d.filters ++ nullGuards rows new }

theorem foldl_addRow (hrows : (rows.map (·.1)).Nodup)
    (hfresh : ∀ n ∈ rows.map (·.1), n ∉ d.tables.map (·.row)) :
    rows.foldl addRow d = d.reading rows [] := by
  induction rows generalizing d with
  | nil => simp [reading, readTables, nullGuards]
  | cons r rows ih =>
    rw [List.map_cons, List.nodup_cons] at hrows
    rw [List.map_cons, List.forall_mem_cons] at hfresh
    have hadd : d.addRow r = { d with tables := d.tables ++ [⟨r.1, r.2.source, []⟩] } := by
      refine if_neg fun hany => hfresh.1 ?_
      simpa using hany
    rw [List.foldl_cons, hadd, ih hrows.2]
    · simp [reading, readTables, nullGuards]
    · intro n hn hmem
      rw [List.map_append, List.mem_append, List.map_singleton, List.mem_singleton] at hmem
      obtain hmem | rfl := hmem
      · exact hfresh.2 n hn hmem
      · exact hrows.1 hn

theorem addColumn_reading {table : LogicalTable} {row : Nat} {name : String}
    (hfresh : ∀ n ∈ rows.map (·.1), n ∉ d.tables.map (·.row))
    (htable : rows.lookup row = some table)
    (hunread : (d.columns ++ new).lookup (row, name) = none) :
    ((d.reading rows new).addColumn row table name).Builds Fault.Any t fun d' t' =>
      d' = d.reading rows (new ++ [((row, name), t.length)]) ∧
        t' = t ++ [columnInfo rows (row, name)] := by
  have hinfo : columnInfo rows (row, name) =
      ⟨.column name, table.columnType name, table.isNullable name⟩ := by
    simp only [columnInfo, htable]
  have hrow : row ∈ rows.map (·.1) := List.mem_map_of_mem (mem_of_lookup htable)
  have htables : (d.tables ++ readTables rows new).map (fun r =>
      if r.row = row then { r with vars := r.vars ++ [t.length] } else r) =
        d.tables ++ readTables rows (new ++ [((row, name), t.length)]) := by
    rw [List.map_append]
    refine congrArg₂ (· ++ ·) ?_ ?_
    · refine (List.map_congr_left fun r hr => if_neg ?_).trans (List.map_id _)
      rintro rfl
      exact hfresh _ hrow (List.mem_map_of_mem hr)
    · rw [readTables, readTables, List.map_map]
      refine List.map_congr_left fun r _ => ?_
      by_cases hr : r.1 = row
      · simp [hr]
      · simp [hr, Ne.symm hr]
  have hcolumns : (d.columns ++ new) ++ [((row, name), t.length)] =
      d.columns ++ (new ++ [((row, name), t.length)]) := List.append_assoc _ _ _
  have hguards : nullGuards rows (new ++ [((row, name), t.length)]) = nullGuards rows new ++
      if table.isNullable name then [.notNull t.length] else [] := by
    rw [nullGuards, List.filter_append, List.map_append]
    refine congrArg _ ?_
    cases hnull : table.isNullable name <;> simp [hinfo, hnull]
  have hreading : d.reading rows (new ++ [((row, name), t.length)]) =
      { d with
        tables := (d.tables ++ readTables rows new).map fun r =>
          if r.row = row then { r with vars := r.vars ++ [t.length] } else r
        columns := (d.columns ++ new) ++ [((row, name), t.length)]
        filters := (d.filters ++ nullGuards rows new) ++
          if table.isNullable name then [.notNull t.length] else [] } := by
    rw [reading, hguards, htables, hcolumns, List.append_assoc]
  have hlookup : (d.reading rows new).columns.lookup (row, name) = none := hunread
  unfold addColumn
  rw [hlookup]
  refine builds_fresh_bind (builds_pure ⟨?_, by rw [hinfo]⟩)
  rw [hreading]
  cases table.isNullable name with
  | true => rfl
  | false =>
    rw [if_neg Bool.false_ne_true, if_neg Bool.false_ne_true, List.append_nil]
    rfl

/-- Columns are read into fresh variables in order, each with a guard if it may be null. -/
theorem addColumns_reading (hfresh : ∀ n ∈ rows.map (·.1), n ∉ d.tables.map (·.row))
    (hold : ∀ e ∈ d.columns, e.1.1 ∉ rows.map (·.1)) (hnodup : (new.map (·.1) ++ columns).Nodup) :
    (addColumns rows (d.reading rows new) columns).Builds Fault.Any t fun d' t' =>
      d' = d.reading rows (new ++ columns.zipIdx t.length) ∧
        t' = t ++ columns.map (columnInfo rows) := by
  induction columns generalizing new t with
  | nil => exact builds_pure ⟨by rw [List.zipIdx_nil, List.append_nil], (List.append_nil t).symm⟩
  | cons column columns ih =>
    obtain ⟨row, name⟩ := column
    rw [addColumns]
    split
    · rename_i table htable
      have hrow : row ∈ rows.map (·.1) := List.mem_map_of_mem (mem_of_lookup htable)
      have hunread : (d.columns ++ new).lookup (row, name) = none := by
        rw [List.lookup_eq_none_iff]
        intro e he
        obtain he | he := List.mem_append.mp he
        · refine bne_iff_ne.mpr ?_
          rintro heq
          exact hold e he (heq ▸ hrow)
        · refine bne_iff_ne.mpr fun heq => ?_
          have hdisjoint := (List.nodup_append.mp hnodup).2.2
          exact hdisjoint e.1 (List.mem_map_of_mem he) (row, name) List.mem_cons_self heq.symm
      refine (addColumn_reading hfresh htable hunread).bind fun d' t' _ hd' => ?_
      obtain ⟨rfl, rfl⟩ := hd'
      have hnodup : ((new ++ [((row, name), t.length)]).map (·.1) ++ columns).Nodup := by
        rwa [List.map_append, List.append_assoc]
      refine (ih hnodup).mono fun d'' t'' _ hd'' => ?_
      rw [List.length_append, List.length_singleton] at hd''
      rw [List.zipIdx_cons, List.map_cons]
      simpa using hd''
    · trivial

theorem mem_vars_readTables_iff (hin : ∀ e ∈ new, e.1.1 ∈ rows.map (·.1)) {v : Variable} :
    v ∈ (readTables rows new).flatMap (·.vars) ↔ v ∈ new.map (·.2) := by
  rw [mem_vars_readTables, List.mem_map]
  exact ⟨fun ⟨e, he, _, hv⟩ => ⟨e, he, hv⟩, fun ⟨e, he, hv⟩ => ⟨e, he, hin e he, hv⟩⟩

/-- A choice of rows that passes the guards. -/
def Guarded (rows : List (Nat × LogicalTable)) (new : ColumnIndex) (choice : RowChoice String) :
    Prop :=
  ∀ e ∈ new, (columnInfo rows e.1).nullable = true → choice e.1.1 e.1.2 ≠ none

/-- Columns are read from the rows into variables that the draft does not have. -/
structure Reads (T : VariableTable) (d : Draft) (rows : List (Nat × LogicalTable))
    (new : ColumnIndex) : Prop where
  distinct : (rows.map (·.1)).Nodup
  once : (new.map (·.2)).Nodup
  fresh : ∀ v ∈ new.map (·.2), v ∉ d.vars
  columns : ∀ e ∈ new, (T.info e.2).kind = .column e.1.2
  numbered : ∀ e ∈ new, e.1.1 ∈ rows.map (·.1)

open Classical in
/-- Reading columns extends every row by the choices that pass the guards. -/
theorem Sound.rows_reading (h : d.Sound T) (hnew : d.Reads T rows new) :
    (d.reading rows new).rowsIn E T = (d.rowsIn E T).bind fun row =>
      ((RowChoice.all E.db rows).filter (Guarded rows new)).map fun choice =>
        row.take (new.map (·.2)) (Row.ofChoice new choice) := by
  have hvars : ∀ v, v ∈ (readTables rows new).flatMap (·.vars) ↔ v ∈ new.map (·.2) := fun v =>
    mem_vars_readTables_iff hnew.numbered
  have htake : ∀ row other : Row String, row.take ((readTables rows new).flatMap (·.vars)) other =
      row.take (new.map (·.2)) other := fun row other => funext fun v => by
    simp only [Row.take, hvars]
  have hguards : ∀ (row : Row String) (choice : RowChoice String), Condition.AllHold E.domain
      (row.take (new.map (·.2)) (Row.ofChoice new choice)) (nullGuards rows new) ↔
        Guarded rows new choice := by
    intro row choice
    unfold Condition.AllHold nullGuards Guarded
    rw [List.forall_mem_map]
    simp only [List.mem_filter, and_imp]
    refine forall_congr' fun e => forall_congr' fun he => forall_congr' fun _ => ?_
    rw [Condition.eval_notNull, Row.take_of_mem (List.mem_map_of_mem he),
      Row.ofChoice_of_mem hnew.once he]
  have hrows : { d with
        tables := d.tables ++ readTables rows new
        columns := d.columns ++ new }.rows E.domain E.db T = (d.rowsIn E T).bind
          (Source.joinAll Source.cross (tableInputs E.db T (readTables rows new))) :=
    h.rows_withTables (d.columns ++ new) fun v hv => hnew.fresh v ((hvars v).mp hv)
  refine (rows_addFilters { d with
    tables := d.tables ++ readTables rows new
    columns := d.columns ++ new } (nullGuards rows new)).trans ?_
  rw [hrows, Multiset.filter_bind]
  refine Multiset.bind_congr fun row _ => ?_
  rw [joinAll_readTables hnew.distinct hnew.once hnew.columns]
  simp only [htake]
  rw [Multiset.filter_map]
  exact congrArg _ (Multiset.filter_congr fun choice _ => hguards row choice)

theorem lookup_reading {k : Nat × String} {v : Variable} (h : d.columns.lookup k = some v) :
    (d.reading rows new).columns.lookup k = some v :=
  List.lookup_append.trans (by rw [h, Option.some_or])

section

variable (h : d.Sound T) (hnew : d.Reads T rows new)

include h hnew

/-- What a draft binds is not affected by columns that it reads besides. -/
theorem Sound.solution_reading (row other : Row String) :
    (d.reading rows new).solution E (row.take (new.map (·.2)) other) = d.solution E row := by
  funext x
  unfold solution
  show (d.bindings.lookup x).bind _ = _
  cases hx : d.bindings.lookup x with
  | none => rfl
  | some b =>
    refine (h.readsFrom (mem_of_lookup hx)).termOf_eq (fun _ _ => lookup_reading) fun v hv => ?_
    exact Row.take_of_not_mem fun hmem => hnew.fresh v hmem hv

theorem Sound.faithful_reading {row : Row String} (hrow : d.Faithful E row) (other : Row String) :
    (d.reading rows new).Faithful E (row.take (new.map (·.2)) other) := by
  intro e he
  refine (h.readsFrom he).trueOf (fun _ _ => lookup_reading) (fun v hv => ?_) (hrow e he)
  exact Row.take_of_not_mem fun hmem => hnew.fresh v hmem hv

open Classical in
/-- Each answer goes with each choice that passes the guards. -/
theorem Sound.answers_reading : (d.reading rows new).answers E T (new.map (·.2)) =
    (d.solutions E T).bind fun a =>
      ((RowChoice.all E.db rows).filter (Guarded rows new)).map fun choice =>
        (a, Row.ofChoice new choice) := by
  rw [answers, h.rows_reading hnew, Multiset.map_bind, solutions, Multiset.bind_map]
  refine Multiset.bind_congr fun row _ => ?_
  rw [Multiset.map_map]
  refine Multiset.map_congr rfl fun choice _ => Prod.ext (h.solution_reading hnew row _) ?_
  show (row.take (new.map (·.2)) (Row.ofChoice new choice)).restrict (new.map (·.2)) = _
  rw [Row.restrict_take]
  funext v
  by_cases hv : v ∈ new.map (·.2)
  · exact Row.restrict_of_mem hv
  · exact (Row.restrict_of_not_mem hv).trans (Row.ofChoice_of_not_mem hv).symm

end

theorem Tracks.reading (h : d.Tracks E t) {t' : VariableTable} (ht : t <+: t')
    (hsound : (d.reading rows new).Sound t') (hnew : ∀ T, t' <+: T → d.Reads T rows new) :
    (d.reading rows new).Tracks E t' where
  sound := hsound
  sorted := h.sorted
  numbered := fun e he => by
    have htables : (readTables rows new).map (·.row) = rows.map (·.1) := by
      rw [readTables, List.map_map]
      rfl
    show e.1.1 ∈ (d.tables ++ readTables rows new).map (·.row)
    rw [List.map_append, htables, List.mem_append]
    obtain he | he := List.mem_append.mp he
    · exact .inl (h.numbered e he)
    · exact .inr ((hnew t' (List.prefix_refl t')).numbered e he)
  faithful := fun T hT row' hrow' => by
    have hd := h.sound.mono (ht.trans hT)
    rw [hd.rows_reading (hnew T hT)] at hrow'
    obtain ⟨row, hrow, hrow'⟩ := Multiset.mem_bind.mp hrow'
    obtain ⟨choice, -, rfl⟩ := Multiset.mem_map.mp hrow'
    exact hd.faithful_reading (hnew T hT) (h.faithful T (ht.trans hT) row hrow) _

end Draft

end VirtualGraph
