import VirtualGraph.Proofs.Block.Nulls
import VirtualGraph.Proofs.Draft.Fitting
import VirtualGraph.Proofs.Draft.Nested

/-!
# Values that nested drafts show

The branches of a union and the right sides of left joins are drafts of their own. A row of the
block around them has the values that one of their rows exposes, and these are as the bindings of
the nested draft say. In a union the row also holds the number of the branch, which tells the shapes
of its terms.
-/

namespace VirtualGraph

variable {α : Type}

namespace Draft

open DraftBuilder

variable {S : Reading α} {t t' T : VariableTable} {d d' : Draft} {row : Row α}

/-! ### Rows of blocks -/

variable {exposed : List Variable} {base : Row α}

/-- A row of the sources of a sound draft fits it once the assignments are made, unless a column is
null that it guards. -/
theorem Sound.fits_run (h : d.Sound T) (exposed : List Variable)
    (hbase : ∀ s ∈ (d.toBlock exposed).sources,
      Source.Fits base (s, Block.sourceRows S.domain S.db T s))
    (hguards : ∀ v ∈ d.tableVars, .notNull v ∈ d.filters →
      Assignment.run S.domain d.assignments base v ≠ none) :
    d.Fits S T (Assignment.run S.domain d.assignments base) where
  tables := fun table htable => by
    have hsource : Source.table table.source table.vars ∈ (d.toBlock exposed).sources :=
      List.mem_append_left _ (List.mem_map.mpr ⟨table, htable, rfl⟩)
    obtain ⟨r, hr, hmatch⟩ | ⟨hon, -⟩ := hbase _ hsource
    · obtain ⟨columns, hcolumns, rfl⟩ := Multiset.mem_map.mp hr
      refine ⟨columns, hcolumns, fun v hv => ?_⟩
      have hmem : v ∈ d.sourceVars :=
        List.mem_append_left _ (List.mem_flatMap.mpr ⟨table, htable, hv⟩)
      rw [h.assignments.run_eq hmem]
      exact hmatch v hv
    · cases hon
  sources := fun s hs => by
    refine (hbase s (List.mem_append_right _ hs)).congr fun v hv => h.assignments.run_eq ?_
    exact List.mem_append_right _ (List.mem_flatMap.mpr ⟨s, hs, hv⟩)
  assigned := fun _ ha => h.assignments.run_target ha
  guards := hguards

theorem Sound.separate (h : d.Sound T) (exposed : List Variable) (D : ValueDomain α)
    (db : Database α) :
    Source.Separate (Block.sourceRowsEach D db T (d.toBlock exposed).sources) := by
  obtain ⟨hregular, -⟩ := (h.toBlock (List.nil_subset _)).regular
  exact hregular.separate db

/-- The rows that the filters of the block are tested on fit the draft. -/
theorem Sound.fits_of_mem_candidateRows (h : d.Sound T)
    (hrow : row ∈ (d.toBlock exposed).candidateRows S.domain S.db T)
    (hguards : ∀ v ∈ d.tableVars, .notNull v ∈ d.filters → row v ≠ none) : d.Fits S T row := by
  obtain ⟨base, hbase, rfl⟩ := Multiset.mem_map.mp hrow
  refine h.fits_run exposed (fun s hs => ?_) hguards
  refine Source.fits_of_mem_combine (h.separate exposed S.domain S.db) hbase _ ?_
  rw [Block.sourceRowsEach_eq_map]
  exact List.mem_map_of_mem hs

/-- The values of some variables are as on a row that fits a draft. -/
def Shows (S : Reading α) (T : VariableTable) (d : Draft) (exposed : List Variable)
    (row : Row α) : Prop :=
  ∃ inner, d.Fits S T inner ∧ ∀ v ∈ exposed, row v = inner v

theorem Shows.congr {row' : Row α} (h : d.Shows S T exposed row)
    (hrow : ∀ v ∈ exposed, row' v = row v) : d.Shows S T exposed row' := by
  obtain ⟨inner, hinner, hexposed⟩ := h
  exact ⟨inner, hinner, fun v hv => (hrow v hv).trans (hexposed v hv)⟩

theorem Shows.mono {exposed' : List Variable} (h : d'.Shows S T exposed' row) (hd : d.Inside d')
    (hexposed : exposed ⊆ exposed') : d.Shows S T exposed row := by
  obtain ⟨inner, hinner, hrow⟩ := h
  exact ⟨inner, hinner.inside hd, fun v hv => hrow v (hexposed hv)⟩

/-- The rows of the block have the values of rows that fit the draft. -/
theorem Sound.shows_of_mem_rows (h : d.Sound T)
    (hrow : row ∈ (d.toBlock exposed).rows S.domain S.db T) : d.Shows S T exposed row := by
  obtain ⟨full, hfull, hfilters, rfl⟩ := Block.mem_rows.mp hrow
  refine ⟨full, h.fits_of_mem_candidateRows hfull fun v _ hfilter => ?_,
    fun v hv => Row.restrict_of_mem hv⟩
  exact Condition.eval_notNull.mp (hfilters _ hfilter)

/-- A binding to what is exposed is as true on a row as it is on the row that shows. -/
theorem Always.present_of_shows {b : Binding} {columns : ColumnIndex}
    (h : d.Always S t fun row => b.Present S.domain row) (hT : t <+: T)
    (hb : b.InScope columns exposed) (hrow : d.Shows S T exposed row) : b.Present S.domain row := by
  obtain ⟨inner, hinner, hexposed⟩ := hrow
  exact (h T hT inner hinner).congr hb hexposed

/-! ### Left joins -/

theorem exposeAll_builds_valued {bs : Bindings} (h : d.Valued S t)
    (hbs : ∀ e ∈ bs, d.Always S t fun row => e.2.Present S.domain row) :
    (exposeAll d exposed bs).Builds Fault.Any t fun r t' => (r.1.Valued S t' ∧ d.Inside r.1) ∧
      ∀ e ∈ r.2.2, r.1.Always S t' fun row => e.2.Present S.domain row := by
  induction bs generalizing d exposed t with
  | nil => exact builds_pure ⟨⟨h, .refl d⟩, fun _ he => absurd he List.not_mem_nil⟩
  | cons e bs ih =>
    obtain ⟨name, b⟩ := e
    rw [List.forall_mem_cons] at hbs
    have ht := List.prefix_append t [⟨.derived, b.type t, b.nullable⟩]
    refine builds_get_bind <| builds_lift_bind
      (h.rebind hbs.1 ht t.length b.escaped) fun x hx => builds_fresh_bind ?_
    have hinside := inside_assign d t.length x
    refine (ih (h.assign ht _ x) fun e he => (hbs.2 e he).mono ht hinside).bind
      fun r t' ht' hr => ?_
    obtain ⟨nested, exposed', bindings⟩ := r
    obtain ⟨⟨hvalued, hinside'⟩, hbindings⟩ := hr
    exact builds_pure ⟨⟨hvalued, hinside.trans hinside'⟩,
      List.forall_mem_cons.mpr ⟨hx.mono ht' hinside', hbindings⟩⟩

/-- Bindings to the right side of a left join may be null, so nothing is said about them. -/
theorem always_padded (S : Reading α) (t : VariableTable) (d : Draft) (b : Binding) :
    d.Always S t fun row => b.padded.Present S.domain row := by
  cases b with
  | term b => exact always_term S t d b
  | value v shape nullable escaped => exact fun _ _ _ _ hnullable => by cases hnullable

theorem bindAgreed_upholds (names : List String) (name : String) {b : Binding} (h : d.Valued S t)
    (hb : d.Always S t fun row => b.Present S.domain row) :
    d.Upholds S t (bindAgreed names d name b) := by
  unfold bindAgreed
  split
  · rename_i existing _ hexisting
    refine (merge_builds_valued h (h.bindings _ (mem_of_lookup hexisting)) hb).bind
      fun r t' ht hr => ?_
    obtain ⟨d', merged⟩ := r
    obtain ⟨⟨hvalued, hinside⟩, hmerged⟩ := hr
    exact builds_pure ⟨hvalued.setBinding name hmerged,
      hinside.trans (inside_setBinding d' name merged)⟩
  · exact bind_upholds h name hb

theorem bindOptional_upholds (names : List String) {bs : Bindings} (h : d.Valued S t) :
    d.Upholds S t (bindOptional names d bs) := by
  induction bs generalizing d t with
  | nil => exact upholds_pure h (.refl d)
  | cons e bs ih =>
    obtain ⟨name, b⟩ := e
    rw [bindOptional_cons]
    exact (bindAgreed_upholds names name h (always_padded S t d b)).bind
      fun _ _ _ hvalued _ => ih hvalued

end Draft

/-! ### Unions -/

namespace UnionDraft

open DraftBuilder

variable {S : Reading α} {t t' T : VariableTable} {index output : Variable} {name : String}
variable {u u' : UnionDraft} {row : Row α}

/-- What exposing a query variable does to a branch. -/
inductive Exposes (output : Variable) (name : String) :
    Draft × List Variable → Draft × List Variable → Prop
  | unbound {d : Draft} {exposed : List Variable} (hnone : d.bindings.lookup name = none) :
    Exposes output name (d, exposed) (d, exposed)
  | bound {d : Draft} {exposed : List Variable} {b : Binding} {x : Scalar}
    (hb : d.bindings.lookup name = some b) (hx : b.toScalar d.columns = .ok x) :
    Exposes output name (d, exposed)
      (d.assign output x, addVariables (exposed ++ [output]) b.shape.indices)

theorem exposeName_forall₂ (output : Variable) (name : String)
    (bs : List (Draft × List Variable)) : (exposeName output name bs).Meets Fault.Any fun r =>
      List.Forall₂ (Exposes output name) bs r.1 := by
  induction bs with
  | nil => exact .nil
  | cons e bs ih =>
    obtain ⟨d, exposed⟩ := e
    rw [exposeName]
    split
    · rename_i hnone
      exact ih.bind fun r hr => .cons (.unbound hnone) hr
    · rename_i b hb
      refine (Result.meets_any (b.toScalar d.columns)).and_eq_ok.bind fun x hx => ih.bind ?_
      exact fun r hr => .cons (.bound hb hx.1) hr

/-- A branch asks at least as much of its rows, and exposes at least as much. -/
def Widens (e e' : Draft × List Variable) : Prop := e.1.Inside e'.1 ∧ e.2 ⊆ e'.2

theorem forall₂_widens_refl (bs : List (Draft × List Variable)) : List.Forall₂ Widens bs bs :=
  List.forall₂_same.mpr fun e _ => ⟨.refl e.1, List.Subset.refl e.2⟩

theorem forall₂_widens_trans {as bs cs : List (Draft × List Variable)}
    (h : List.Forall₂ Widens as bs) (h' : List.Forall₂ Widens bs cs) :
    List.Forall₂ Widens as cs := by
  induction h generalizing cs with
  | nil => exact h'
  | cons hfirst _ ih =>
    cases h' with
    | cons hfirst' hrest' =>
      exact .cons ⟨hfirst.1.trans hfirst'.1, List.Subset.trans hfirst.2 hfirst'.2⟩ (ih hrest')

theorem Exposes.widens {e e' : Draft × List Variable} (h : Exposes output name e e') :
    Widens e e' := by
  cases h with
  | unbound _ => exact ⟨.refl _, List.Subset.refl _⟩
  | bound _ _ =>
    refine ⟨Draft.inside_assign _ _ _, fun v hv => mem_addVariables.mpr (.inl ?_)⟩
    exact List.mem_append_left _ hv

/-- The values of a row are those that a branch exposes on one of its rows, and the index is the
number of the branch. -/
def Shows (S : Reading α) (T : VariableTable) (index : Variable) (u : UnionDraft) (row : Row α) :
    Prop :=
  ∃ (n : Nat) (e : Draft × List Variable), u.branches[n]? = some e ∧ e.1.Shows S T e.2 row ∧
    row index = some (S.domain.constant (toString n) .integer)

theorem exists_getElem?_of_forall₂ {β γ : Type} {R : β → γ → Prop} {as : List β} {bs : List γ}
    (h : List.Forall₂ R as bs) {n : Nat} {b : γ} (hb : bs[n]? = some b) :
    ∃ a, as[n]? = some a ∧ R a b := by
  induction h generalizing n with
  | nil => cases hb
  | @cons a _ _ _ hfirst _ ih =>
    cases n with
    | zero =>
      cases hb
      exact ⟨a, rfl, hfirst⟩
    | succ n => exact ih hb

theorem Shows.of_widens (h : u'.Shows S T index row)
    (hu : List.Forall₂ Widens u.branches u'.branches) : u.Shows S T index row := by
  obtain ⟨n, e', he', hrow, hindex⟩ := h
  obtain ⟨e, he, hwidens⟩ := exists_getElem?_of_forall₂ hu he'
  exact ⟨n, e, he, hrow.mono hwidens.1 hwidens.2, hindex⟩

/-- What the branches and the bindings of a union say about nulls is true. -/
structure Valued (S : Reading α) (t : VariableTable) (index : Variable) (u : UnionDraft) :
    Prop where
  branches : ∀ e ∈ u.branches, e.1.Valued S t
  bindings : ∀ e ∈ u.bindings, ∀ T, t <+: T → ∀ row, u.Shows S T index row →
    e.2.Present S.domain row

theorem Exposes.valued {e e' : Draft × List Variable} (h : Exposes output name e e')
    (he : e.1.Valued S t) (ht : t <+: t') : e'.1.Valued S t' := by
  cases h with
  | unbound _ => exact he.mono ht
  | bound _ _ => exact he.assign ht _ _

/-- On a row of a branch that binds the query variable to a value that is not null, the output is
not null, and the language of the branch is told. -/
theorem Exposes.present {e e' : Draft × List Variable} (h : Exposes output name e e')
    (he : e.1.Valued S t) {b : Binding} (hb : e.1.bindings.lookup name = some b)
    (hnullable : b.nullable = false) (ht : t <+: t') (hT : t' <+: T)
    (hrow : e'.1.Shows S T e'.2 row) : row output ≠ none ∧ b.shape.Told S.domain row := by
  cases h with
  | unbound hnone => exact absurd (hnone.symm.trans hb) (Option.some_ne_none b).symm
  | @bound d exposed b' x hb' hx =>
    obtain rfl : b = b' := Option.some_inj.mp (hb.symm.trans hb')
    obtain ⟨inner, hinner, hexposed⟩ := hrow
    have hrebind := he.rebind (he.bindings _ (mem_of_lookup hb)) ht output b.escaped
    rw [hx] at hrebind
    obtain ⟨hvalue, htold⟩ := hrebind T hT inner hinner hnullable
    have houtput : output ∈ addVariables (exposed ++ [output]) b.shape.indices :=
      mem_addVariables.mpr (.inl (List.mem_append_right _ List.mem_cons_self))
    refine ⟨hexposed output houtput ▸ hvalue, htold.congr fun v hv => hexposed v ?_⟩
    exact mem_addVariables.mpr (.inr hv)

theorem told_shape {D : ValueDomain α} (hD : D.TellsNumbers) {n : Nat}
    (hindex : row index = some (D.constant (toString n) .integer)) {shapes : List (Option Shape)}
    {s : Shape} (hs : shapes[n]? = some (some s)) (htold : s.Told D row) :
    (shape index shapes).Told D row := by
  have hbranches := Shape.told_byBranch hD hindex hs htold
  unfold shape
  split
  · split
    · exact Shape.told_known D row _
    · exact hbranches
  · exact hbranches

/-- A query variable of a union is not null if no branch lacks it or may have it null. -/
theorem addName_builds_valued (h : u.Valued S t index) (name : String) :
    (u.addName index name).Builds Fault.Any t fun u' t' =>
      u'.Valued S t' index ∧ List.Forall₂ Widens u.branches u'.branches := by
  refine builds_get_bind (builds_fresh_bind ?_)
  refine builds_lift_bind (exposeName_forall₂ t.length name u.branches) fun r hr => builds_pure ?_
  obtain ⟨branches, indices⟩ := r
  have ht := List.prefix_append t [⟨.derived,
    (SqlType.commonAll (((u.branches.map fun e => e.1.bindings.lookup name).filterMap id).map
      (·.type t))).getD .string,
    (u.branches.map fun e => e.1.bindings.lookup name).any
      fun b => (b.map Binding.nullable).getD true⟩]
  have hwidens : List.Forall₂ Widens u.branches branches := hr.imp fun _ _ h => h.widens
  refine ⟨⟨fun e' he' => ?_, fun e he T hT row hrow => ?_⟩, hwidens⟩
  · obtain ⟨n, hn⟩ := List.mem_iff_getElem?.mp he'
    obtain ⟨e, he, hexposes⟩ := exists_getElem?_of_forall₂ hr hn
    exact hexposes.valued (h.branches e (List.mem_of_getElem? he)) ht
  · obtain he | he := List.mem_append.mp he
    · exact h.bindings e he T (ht.trans hT) row (hrow.of_widens hwidens)
    · obtain rfl := List.mem_singleton.mp he
      intro hnullable
      obtain ⟨n, e', he', hshows, hindex⟩ := hrow
      obtain ⟨e, he, hexposes⟩ := exists_getElem?_of_forall₂ hr he'
      -- no branch lacks the query variable, so the branch that the row comes from has it
      have hfound := List.any_eq_false.mp hnullable _
        (List.mem_map_of_mem (List.mem_of_getElem? he))
      cases hb : e.1.bindings.lookup name with
      | none => simp [hb] at hfound
      | some b =>
        have hnullable : b.nullable = false := by simpa [hb] using hfound
        obtain ⟨hvalue, htold⟩ := hexposes.present (h.branches e (List.mem_of_getElem? he)) hb
          hnullable ht hT hshows
        refine ⟨hvalue, told_shape S.tells hindex ?_ htold⟩
        rw [List.map_map, List.getElem?_map, he]
        exact congrArg (fun found => some (found.map Binding.shape)) hb

theorem addNames_builds_valued {names : List String} (h : u.Valued S t index) :
    (addNames index u names).Builds Fault.Any t fun u' t' =>
      u'.Valued S t' index ∧ List.Forall₂ Widens u.branches u'.branches := by
  induction names generalizing u t with
  | nil => exact builds_pure ⟨h, forall₂_widens_refl _⟩
  | cons name names ih =>
    refine (addName_builds_valued h name).bind fun u' t' _ hu' => ?_
    exact (ih hu'.1).mono fun _ _ _ hu'' => ⟨hu''.1, forall₂_widens_trans hu'.2 hu''.2⟩

theorem valued_ofDrafts {ds : List Draft} (h : ∀ d ∈ ds, d.Valued S t) :
    Valued S t index ⟨ds.map (·, []), [], []⟩ := by
  refine ⟨fun e he => ?_, fun _ he => absurd he List.not_mem_nil⟩
  obtain ⟨d, hd, rfl⟩ := List.mem_map.mp he
  exact h d hd

/-- A row of a union shows a branch. -/
theorem Sound.shows_of_matched (h : u.Sound t index) (hT : t <+: T)
    (hrow : Source.Matched row (u.source index,
      Block.sourceRows S.domain S.db T (u.source index))) : u.Shows S T index row := by
  obtain ⟨r, hr, hmatch⟩ := hrow
  obtain ⟨n, block, hblock, inner, hinner, rfl⟩ := Block.mem_branchRows hr
  rw [List.getElem?_map, Option.map_eq_some_iff] at hblock
  obtain ⟨e, he, rfl⟩ := hblock
  have hbranch := h.branches e (List.mem_of_getElem? he)
  refine ⟨n, e, he, ?_, ?_⟩
  · refine ((hbranch.sound.mono hT).shows_of_mem_rows hinner).congr fun v hv => ?_
    have hvar := hbranch.covered hv
    rw [hmatch v (List.mem_cons_of_mem _ hvar)]
    exact Row.assign_of_ne (Nat.ne_of_gt (h.taken v hvar).1)
  · rw [hmatch index List.mem_cons_self, Row.assign_self, Nat.zero_add]

end UnionDraft

namespace Draft

variable {S : Reading α} {t : VariableTable} {d : Draft} {index : Variable} {u : UnionDraft}

/-- The query variables of a union are bound to what its branches show. -/
theorem bindUnion_upholds (h : d.Valued S t) (hsound : u.Sound t index)
    (hu : u.Valued S t index) : (d.addSource (u.source index)).Upholds S t
      (bindAll (d.addSource (u.source index)) u.bindings) := by
  refine bindAll_upholds (h.addSource _) fun e he T hT row hrow => ?_
  refine hu.bindings e he T hT row (hsound.shows_of_matched hT ?_)
  obtain hmatched | ⟨hon, -⟩ := hrow.sources (u.source index)
    (List.mem_append_right _ List.mem_cons_self)
  · exact hmatched
  · cases hon

end Draft

end VirtualGraph
