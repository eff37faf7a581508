import VirtualGraph.Proofs.Draft.Sound

/-!
# Steps of the construction

Candidates, bindings, computed values and filters added to a draft. A candidate reads all columns
that its terms and joins need before they are used, so no column is ever missing. Computed values
and filters are where the construction may fail, with an expression that cannot be compiled.
-/

namespace VirtualGraph

namespace Candidate

theorem mem_foldl_addNew {α : Type} [BEq α] [LawfulBEq α] {l seen : List α} {a : α} :
    a ∈ l.foldl (fun seen c => if seen.contains c then seen else seen ++ [c]) seen ↔
      a ∈ seen ∨ a ∈ l := by
  induction l generalizing seen with
  | nil => simp
  | cons b l ih =>
    rw [List.foldl_cons, ih]
    split
    · rename_i hb
      have hb := List.contains_iff_mem.mp hb
      rw [List.mem_cons]
      constructor
      · exact fun h => h.imp id .inr
      · rintro (h | rfl | h)
        · exact .inl h
        · exact .inl hb
        · exact .inr h
    · simp [or_assoc]

theorem mem_columns {c : Candidate} {column : Nat × String} :
    column ∈ c.columns ↔
      (∃ p, column.1 = (c.source p).2.1 ∧ column.2 ∈ (c.source p).1.columns) ∨
        ∃ j ∈ c.joins, column = j.1 ∨ column = j.2 := by
  have hall : ∀ p, p ∈ Position.all := by
    intro p
    cases p <;> decide
  unfold columns
  simp only [mem_foldl_addNew, List.not_mem_nil, false_or, List.mem_append, List.mem_flatMap,
    List.mem_map, hall, true_and, List.mem_cons, or_false]
  refine or_congr ?_ Iff.rfl
  constructor
  · rintro ⟨p, name, hname, rfl⟩
    exact ⟨p, rfl, hname⟩
  · rintro ⟨p, hrow, hname⟩
    exact ⟨p, column.2, hname, Prod.ext hrow.symm rfl⟩

theorem row_mem_columns {c : Candidate} {column : Nat × String} (h : column ∈ c.columns) :
    column.1 ∈ c.rows.map (·.1) := by
  have hown : c.row ∈ c.rows.map (·.1) := by
    unfold rows
    split
    · split <;> simp
    · simp
  have hparent : ∀ map row joins, c.object = .parent map row joins → row ∈ c.rows.map (·.1) := by
    intro map row joins hobject
    by_cases hrow : row = c.row
    · exact hrow ▸ hown
    · simp [rows, hobject, hrow]
  obtain ⟨p, hrow, -⟩ | ⟨j, hj, hcolumn⟩ := mem_columns.mp h
  · rw [hrow]
    cases p with
    | object =>
      unfold source
      cases hobject : c.object with
      | term map => exact hown
      | parent map row joins => exact hparent map row joins hobject
    | _ => exact hown
  · unfold joins at hj
    cases hobject : c.object with
    | term map =>
      rw [hobject] at hj
      exact absurd hj List.not_mem_nil
    | parent map row joins =>
      rw [hobject] at hj
      obtain ⟨join, -, rfl⟩ := List.mem_map.mp hj
      obtain rfl | rfl := hcolumn
      · exact hown
      · exact hparent map row joins hobject

/-- A term map reads the columns that it names, with the types that the table gives them. -/
theorem slot_mem_toPattern {m : TermMap} {row : Nat} {table : LogicalTable} {s : Slot}
    (h : .slot s ∈ (m.toPattern row table).symbols) :
    s.row = row ∧ s.column ∈ m.columns ∧ s.type = table.columnType s.column := by
  obtain ⟨kind, termType, datatype, language⟩ := m
  cases kind with
  | constant value => simp [TermMap.toPattern, Pattern.ofText] at h
  | column name =>
    simp only [TermMap.toPattern, Pattern.ofSlot, List.mem_singleton, Symbol.slot.injEq] at h
    subst h
    exact ⟨rfl, List.mem_cons_self, rfl⟩
  | template text parts =>
    simp only [TermMap.toPattern, Pattern.ofTemplate, Pattern.ofItems, List.mem_flatMap,
      List.mem_map] at h
    obtain ⟨item, ⟨part, hpart, rfl⟩, hs⟩ := h
    cases part with
    | text t => simp [PatternItem.symbols] at hs
    | column name =>
      simp only [PatternItem.symbols, List.mem_singleton, Symbol.slot.injEq] at hs
      subst hs
      exact ⟨rfl, List.mem_filterMap.mpr ⟨_, hpart, rfl⟩, rfl⟩

theorem slot_mem_columns {c : Candidate} {p : Position} {s : Slot}
    (h : .slot s ∈ (c.term p).pattern.symbols) : (s.row, s.column) ∈ c.columns := by
  obtain ⟨hrow, hcolumn, -⟩ := slot_mem_toPattern h
  exact mem_columns.mpr (.inl ⟨p, hrow, hcolumn⟩)

end Candidate

namespace Draft

variable {t t' : VariableTable} {d d' : Draft}

/-- What a step of the construction keeps: the invariant, and all that the draft had. -/
def Evolves (allowed : Fault → Prop) (t : VariableTable) (d : Draft) (x : DraftBuilder Draft) :
    Prop :=
  x.Builds allowed t fun d' t' => d'.Sound t' ∧ d.Grows t d'

section Steps

open DraftBuilder

variable {allowed : Fault → Prop} {x : DraftBuilder Draft} {f : Draft → DraftBuilder Draft}

theorem evolves_pure (h : d'.Sound t) (hgrows : d.Grows t d') : d.Evolves allowed t (pure d') :=
  builds_pure ⟨h, hgrows⟩

theorem Evolves.bind (h : d.Evolves allowed t x)
    (hf : ∀ d' t', t <+: t' → d'.Sound t' → d.Grows t d' → d'.Evolves allowed t' (f d')) :
    d.Evolves allowed t (x >>= f) := by
  refine Builds.bind h fun d' t' ht hd' => ?_
  exact (hf d' t' ht hd'.1 hd'.2).mono fun _ _ _ hd => ⟨hd.1, hd'.2.trans ht hd.2⟩

/-- A step from a draft that the draft has grown into. -/
theorem Evolves.of_grows (hgrows : d.Grows t d') (h : d'.Evolves allowed t x) :
    d.Evolves allowed t x :=
  h.mono fun _ _ _ hd => ⟨hd.1, hgrows.trans (List.prefix_refl t) hd.2⟩

theorem rows_addTableVariable (d : Draft) (row : Nat) (v : Variable) :
    (d.addTableVariable row v).tables.map (·.row) = d.tables.map (·.row) := by
  rw [addTableVariable, List.map_map]
  refine List.map_congr_left fun table _ => ?_
  simp only [Function.comp_apply]
  split <;> rfl

/-- The next variable becomes the variable of a column. -/
theorem Sound.addTableVariable (h : d.Sound t) {row : Nat} {name : String} {info : VariableInfo}
    (hrow : row ∈ d.tables.map (·.row)) (hkind : info.kind = .column name) :
    let d' := { d with columns := d.columns ++ [((row, name), t.length)] }.addTableVariable row
      t.length
    d'.Sound (t ++ [info]) ∧ d.Grows t d' ∧ t.length ∈ d'.vars := by
  intro d'
  have hperm := perm_addTableVariable t.length h.rows hrow
  have hvars : ∀ v, v ∈ d'.vars ↔ v = t.length ∨ v ∈ d.vars := fun v =>
    (perm_vars_withTables hperm).mem_iff.trans List.mem_cons
  have hlookup : ∀ k, (d.columns.lookup k).isSome →
      ((d.columns ++ [((row, name), t.length)]).lookup k).isSome := by
    intro k hk
    rw [List.lookup_append, Option.isSome_or, hk, Bool.true_or]
  refine ⟨(h.mono (List.prefix_append t [info])).withTables ?_ hperm (List.nodup_singleton _) ?_ ?_
    hlookup, ⟨fun v hv => (hvars v).mpr (.inr hv), ?_, hlookup⟩, (hvars _).mpr (.inl rfl)⟩
  · exact rows_addTableVariable d row t.length ▸ h.rows
  · intro v hv
    obtain rfl := List.mem_singleton.mp hv
    exact ⟨h.fresh, by simp, info, name, by simp, hkind⟩
  · intro e he
    rw [hperm.mem_iff]
    obtain he | he := List.mem_append.mp he
    · exact List.mem_append_right _ (h.indexed e he)
    · exact List.mem_append_left _ (List.mem_singleton.mpr (by rw [List.mem_singleton.mp he]))
  · intro v hv
    obtain rfl | hv := (hvars v).mp hv
    · exact .inr (Nat.le_refl _)
    · exact .inl hv

theorem addColumn_builds (h : d.Sound t) {row : Nat} (table : LogicalTable) (name : String)
    (hrow : row ∈ d.tables.map (·.row)) :
    (d.addColumn row table name).Builds Fault.Excluded t fun d' t' =>
      (d'.Sound t' ∧ d.Grows t d') ∧ d'.tables.map (·.row) = d.tables.map (·.row) ∧
        (d'.columns.lookup (row, name)).isSome := by
  unfold addColumn
  split
  · rename_i v hv
    exact builds_pure ⟨⟨h, .refl t d⟩, rfl, hv ▸ rfl⟩
  · refine builds_fresh_bind (builds_pure ?_)
    obtain ⟨hsound, hgrows, hmem⟩ := h.addTableVariable hrow
      (rfl : VariableInfo.kind ⟨.column name, table.columnType name, table.isNullable name⟩ = _)
    have hrows := rows_addTableVariable d row t.length
    have hlookup : ((d.columns ++ [((row, name), t.length)]).lookup (row, name)).isSome :=
      List.lookup_isSome_iff.mpr ⟨_, List.mem_append_right _ List.mem_cons_self, beq_self_eq_true _⟩
    split
    · have hfilter := hsound.addFilter (c := .notNull t.length)
        (List.cons_subset.mpr ⟨hmem, List.nil_subset _⟩)
      exact ⟨⟨hfilter, hgrows.trans (List.prefix_refl t) (grows_addFilter t _ _)⟩, hrows, hlookup⟩
    · exact ⟨⟨hsound, hgrows⟩, hrows, hlookup⟩

/-- After columns are read, they are in the index. -/
theorem addColumns_builds {rows : List (Nat × LogicalTable)} {columns : List (Nat × String)}
    (h : d.Sound t) (hrows : ∀ c ∈ columns, (rows.lookup c.1).isSome)
    (htables : ∀ c ∈ columns, c.1 ∈ d.tables.map (·.row)) :
    (addColumns rows d columns).Builds Fault.Excluded t fun d' t' =>
      (d'.Sound t' ∧ d.Grows t d') ∧ ∀ c ∈ columns, (d'.columns.lookup c).isSome := by
  induction columns generalizing d t with
  | nil => exact builds_pure ⟨⟨h, .refl t d⟩, fun _ hc => absurd hc List.not_mem_nil⟩
  | cons column columns ih =>
    obtain ⟨row, name⟩ := column
    rw [List.forall_mem_cons] at hrows htables
    obtain ⟨table, htable⟩ := Option.isSome_iff_exists.mp hrows.1
    rw [addColumns, htable]
    refine (addColumn_builds h table name htables.1).bind fun d' t' ht hd' => ?_
    obtain ⟨⟨hsound, hgrows⟩, hsame, hlookup⟩ := hd'
    refine (ih hsound hrows.2 (hsame ▸ htables.2)).mono fun d'' t'' _ hd'' => ?_
    obtain ⟨⟨hsound', hgrows'⟩, hlookups⟩ := hd''
    exact ⟨⟨hsound', hgrows.trans ht hgrows'⟩,
      List.forall_mem_cons.mpr ⟨hgrows'.columns _ hlookup, hlookups⟩⟩

theorem addJoins_meets {joins : List ((Nat × String) × (Nat × String))} (h : d.Sound t)
    (hjoins : ∀ j ∈ joins, (d.columns.lookup j.1).isSome ∧ (d.columns.lookup j.2).isSome) :
    (addJoins d joins).Meets Fault.Excluded fun d' => d'.Sound t ∧ d.Grows t d' := by
  induction joins generalizing d with
  | nil => exact ⟨h, .refl t d⟩
  | cons j joins ih =>
    obtain ⟨child, parent⟩ := j
    rw [List.forall_mem_cons] at hjoins
    refine (h.within.get hjoins.1.1).bind fun v hv => (h.within.get hjoins.1.2).bind fun w hw => ?_
    have hreads : (Condition.sameVariable v w).referenced ⊆ d.vars :=
      List.cons_subset.mpr ⟨hv, List.cons_subset.mpr ⟨hw, List.nil_subset _⟩⟩
    refine (ih (h.addFilter hreads) hjoins.2).mono fun d' hd' => ⟨hd'.1, ?_⟩
    exact (grows_addFilter t d _).trans (List.prefix_refl t) hd'.2

/-- Two bindings in scope have a common one. -/
theorem merge_builds (h : d.Sound t) {existing new : Binding}
    (hexisting : existing.InScope d.columns d.vars) (hnew : new.InScope d.columns d.vars) :
    (d.merge existing new).Builds Fault.Excluded t fun r t' =>
      (r.1.Sound t' ∧ d.Grows t r.1) ∧ r.2.InScope r.1.columns r.1.vars := by
  unfold merge
  split
  · exact builds_pure ⟨⟨h, .refl t d⟩, hexisting⟩
  · split
    · exact builds_pure ⟨⟨h, .refl t d⟩, hnew⟩
    · refine builds_get_bind <| builds_lift_bind (Binding.toScalar_meets h.within hexisting)
        fun x hx => builds_lift_bind (Binding.toScalar_meets h.within hnew) fun y hy =>
        builds_fresh_bind <| builds_pure ?_
      have hreads : (Scalar.coalesce [x, y]).referenced ⊆ d.vars :=
        Scalar.referencedAll_subset.mpr (by simpa using ⟨hx, hy⟩)
      have hgrows : d.Grows t (d.assign t.length (.coalesce [x, y])) :=
        grows_assign d _ (Nat.le_refl _)
      refine ⟨⟨(h.mono (List.prefix_append t _)).assign h.fresh (by simp) hreads, hgrows⟩, ?_, ?_⟩
      · rw [vars_assign]
        exact List.mem_append_right _ List.mem_cons_self
      · exact List.Subset.trans (Shape.indices_merge hexisting.indices) hgrows.vars

theorem bind_evolves (h : d.Sound t) (name : String) {b : Binding}
    (hb : b.InScope d.columns d.vars) : d.Evolves Fault.Excluded t (d.bind name b) := by
  unfold bind
  split
  · exact evolves_pure (h.setBinding name hb) (grows_setBinding t d name b)
  · rename_i existing hlookup
    have hexisting := h.bindings _ (mem_of_lookup hlookup)
    refine builds_lift_bind (Binding.equality_meets h.within hexisting hb) fun c hc => ?_
    refine Evolves.of_grows (grows_addFilter t d c) ?_
    refine (merge_builds (h.addFilter hc) hexisting hb).bind fun r t' ht hr => ?_
    obtain ⟨d', merged⟩ := r
    obtain ⟨⟨hsound, hgrows⟩, hmerged⟩ := hr
    exact builds_pure ⟨hsound.setBinding name hmerged,
      hgrows.trans ht (grows_setBinding t' d' name merged)⟩

theorem bindAll_evolves {bs : Bindings} (h : d.Sound t)
    (hbs : ∀ e ∈ bs, e.2.InScope d.columns d.vars) : d.Evolves Fault.Excluded t (bindAll d bs) := by
  induction bs generalizing d t with
  | nil => exact evolves_pure h (.refl t d)
  | cons e bs ih =>
    obtain ⟨name, b⟩ := e
    rw [List.forall_mem_cons] at hbs
    refine (bind_evolves h name hbs.1).bind fun d' t' _ hsound hgrows => ?_
    exact ih hsound fun e he => hgrows.inScope (hbs.2 e he)

theorem addTerms_evolves {c : Candidate} {positions : List Position} (h : d.Sound t)
    (hc : ∀ p, d.columns.Covers (c.term p).pattern) :
    d.Evolves Fault.Excluded t (addTerms c d positions) := by
  induction positions generalizing d t with
  | nil => exact evolves_pure h (.refl t d)
  | cons p positions ih =>
    rw [addTerms]
    split
    · rename_i name _
      refine (bind_evolves h name (b := .term (c.term p)) (hc p)).bind
        fun d' t' _ hsound hgrows => ih hsound fun p s hs => hgrows.columns _ (hc p s hs)
    · split
      · rename_i a ha
        have hequality := BoundTerm.equality_meets h.within (BoundTerm.covers_ofTerm? ha) (hc p)
        refine builds_lift_bind hequality fun condition hcondition => ?_
        exact Evolves.of_grows (grows_addFilter t d condition) (ih (h.addFilter hcondition) hc)
      · exact ih h hc

/-- A candidate never misses a column: all that its terms and joins read is read first. -/
theorem addCandidate_evolves (h : d.Sound t) (c : Candidate) :
    d.Evolves Fault.Excluded t (d.addCandidate c) := by
  obtain ⟨hrows, hgrows⟩ := h.addRows c.rows
  refine Evolves.of_grows hgrows ?_
  have hlookup : ∀ column ∈ c.columns, (c.rows.lookup column.1).isSome := fun column hc => by
    obtain ⟨row, hrow, heq⟩ := List.mem_map.mp (Candidate.row_mem_columns hc)
    exact List.lookup_isSome_iff.mpr ⟨row, hrow, by simp [heq]⟩
  have htables : ∀ column ∈ c.columns,
      column.1 ∈ (c.rows.foldl Draft.addRow d).tables.map (·.row) := fun column hc =>
    mem_rows_addRows.mpr (.inr (Candidate.row_mem_columns hc))
  refine (addColumns_builds hrows hlookup htables).bind fun d' t' ht hd' => ?_
  obtain ⟨⟨hsound, hgrows'⟩, hcolumns⟩ := hd'
  have hjoins : ∀ j ∈ c.joins,
      (d'.columns.lookup j.1).isSome ∧ (d'.columns.lookup j.2).isSome := fun j hj =>
    ⟨hcolumns _ (Candidate.mem_columns.mpr (.inr ⟨j, hj, .inl rfl⟩)),
      hcolumns _ (Candidate.mem_columns.mpr (.inr ⟨j, hj, .inr rfl⟩))⟩
  refine builds_lift_bind (addJoins_meets hsound hjoins) fun d'' hd'' => ?_
  obtain ⟨hsound', hgrows''⟩ := hd''
  have hcovers : ∀ p, d''.columns.Covers (c.term p).pattern := fun p s hs =>
    hgrows''.columns _ (hcolumns _ (Candidate.slot_mem_columns hs))
  refine (addTerms_evolves hsound' hcovers).mono fun _ _ _ hd => ⟨hd.1, ?_⟩
  exact (hgrows'.trans ht hgrows'').trans ht hd.2

theorem Sound.scope (h : d.Sound t) (t' : VariableTable) (names : List String) :
    (d.scope t' names).InScope d.vars :=
  ⟨h.within, fun e he => h.bindings e (List.mem_filter.mp he).1⟩

/-- A computed value becomes an assignment. -/
theorem extend_evolves (h : d.Sound t) (names : List String) (name : String) (e : Expression) :
    d.Evolves Fault.IsUnsupported t (d.extend names name e) := by
  have hscope := h.scope t names
  unfold extend
  refine builds_get_bind ?_
  simp only
  split
  · exact builds_throw trivial
  · split
    · rename_i b hb
      have hb : b.InScope d.columns d.vars := by
        split at hb
        · exact hscope.binding hb
        · cases hb
      exact (bind_evolves h name hb).of_excluded
    · refine builds_lift_bind (Expression.value_meets hscope e) fun v hv => ?_
      split
      · exact evolves_pure h (.refl t d)
      · refine builds_fresh_bind ?_
        have hgrows : d.Grows t (d.assign t.length v.scalar) := grows_assign d _ (Nat.le_refl _)
        have hsound := (h.mono (List.prefix_append t [⟨.derived, v.type, v.nullable⟩])).assign
          h.fresh (by simp) hv.reads
        have hmem : t.length ∈ (d.assign t.length v.scalar).vars := by
          rw [vars_assign]
          exact List.mem_append_right _ List.mem_cons_self
        have hb : (Binding.value t.length v.shape v.nullable v.escaped).InScope
            (d.assign t.length v.scalar).columns (d.assign t.length v.scalar).vars :=
          ⟨hmem, List.Subset.trans hv.indices hgrows.vars⟩
        refine Builds.of_excluded ((bind_evolves hsound name hb).mono ?_)
        exact fun _ _ _ hd => ⟨hd.1, hgrows.trans (List.prefix_append t _) hd.2⟩

theorem restrict_evolves (h : d.Sound t) (names : List String) (e : Expression) :
    d.Evolves Fault.IsUnsupported t (d.restrict names e) := by
  refine builds_get_bind ?_
  refine builds_lift_bind (Expression.condition_meets (h.scope t names) e) fun c hc => ?_
  exact evolves_pure (h.addFilter hc) (grows_addFilter t d c)

end Steps

end Draft

end VirtualGraph
