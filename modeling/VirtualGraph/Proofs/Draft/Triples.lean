import VirtualGraph.Proofs.Draft.Columns

/-!
# Answers of candidates

A candidate extends the answers of a draft by its own solutions: of the choices of its rows the
filters keep those that it admits. Null columns are excluded by guards or by what the table
declares, joined columns are compared as variables, and constants and repeated variables through the
patterns of their terms.
-/

namespace VirtualGraph

namespace Draft

open DraftBuilder

variable {E : Setting} {t T : VariableTable} {d d' : Draft} {vs : List Variable}

/-! ### Conditions on the values of an answer -/

/-- A filter keeps the answers whose values meet the condition that it stands for. -/
theorem Tracks.addFilter_yields (h : d.Tracks E t) {c : Condition} (hc : c.referenced ⊆ d.vars)
    {P : Row String → Prop} (hP : ∀ T, t <+: T → ∀ row ∈ d.rowsIn E T,
      (c.eval E.domain row = .yes ↔ P (row.restrict vs))) :
    d.Yields E t vs (fun a row => a.keep (P row)) (d.addFilter c) t where
  tracks := h.addFilter hc
  grows := grows_addFilter t d c
  columns := rfl
  tables := rfl
  answers := fun T hT => by
    rw [answers, rowsIn, rows_addFilter, ← Multiset.bind_singleton, Multiset.bind_filter, answers,
      Multiset.bind_map]
    refine Multiset.bind_congr fun row hrow => ?_
    have hiff := hP T hT row hrow
    split
    · rename_i hyes
      rw [Solution.keep_of (hiff.mp hyes), Multiset.map_singleton]
      rfl
    · rename_i hno
      rw [Solution.keep_of_not fun hp => hno (hiff.mpr hp), Multiset.map_zero]

/-- The value of a column on a row. -/
def columnValue (d : Draft) (row : Row String) (column : Nat × String) : Option String :=
  (d.columns.lookup column).bind row

/-- Given columns are read into given variables. -/
def HasColumns (d : Draft) (vs : List Variable) (columns : List (Nat × String)) : Prop :=
  ∀ c ∈ columns, ∃ v ∈ vs, d.columns.lookup c = some v

/-- Join conditions keep the answers whose columns have the same values. -/
theorem addJoins_yields {joins : List ((Nat × String) × (Nat × String))} (h : d.Tracks E t)
    (hvs : vs ⊆ d.vars) (hcolumns : d.HasColumns vs (joins.flatMap fun j => [j.1, j.2])) :
    (addJoins d joins).Meets Fault.Excluded fun d' => d.Yields E t vs (fun a row =>
      a.keep (∀ j ∈ joins, d.columnValue row j.1 ≠ none ∧
        d.columnValue row j.1 = d.columnValue row j.2)) d' t := by
  induction joins generalizing d with
  | nil =>
    refine (yields_self h).congr (List.prefix_refl t) fun _ _ _ _ => (Solution.keep_of ?_).symm
    exact fun _ hj => absurd hj List.not_mem_nil
  | cons j joins ih =>
    obtain ⟨child, parent⟩ := j
    rw [List.flatMap_cons] at hcolumns
    obtain ⟨v, hv, hchild⟩ := hcolumns child (by simp)
    obtain ⟨w, hw, hparent⟩ := hcolumns parent (by simp)
    rw [addJoins, ColumnIndex.get, ColumnIndex.get, hchild, hparent]
    have hreads : (Condition.sameVariable v w).referenced ⊆ d.vars :=
      List.cons_subset.mpr ⟨hvs hv, List.cons_subset.mpr ⟨hvs hw, List.nil_subset _⟩⟩
    have hfilter : d.Yields E t vs (fun a row => a.keep (row v ≠ none ∧ row v = row w))
        (d.addFilter (.sameVariable v w)) t := by
      refine h.addFilter_yields hreads fun T _ row _ => ?_
      rw [Row.restrict_of_mem hv, Row.restrict_of_mem hw]
      exact Condition.eval_sameVariable E.textual
    refine (ih hfilter.tracks hvs fun c hc => hcolumns c (by simp [hc])).mono fun d' hd' => ?_
    refine (hfilter.trans (List.prefix_refl t) (List.prefix_refl t) hd').congr (List.prefix_refl t)
      fun _ _ x _ => ?_
    rw [Solution.keep_bind_keep, List.forall_mem_cons]
    refine Solution.keep_congr (and_congr_left' ?_)
    rw [columnValue, columnValue, hchild, hparent]
    rfl

end Draft

namespace Candidate

variable {c : Candidate} {terms : Position → RdfTerm} {positions : List Position}

/-- The solution that terms at positions make, if they are those of the constants there and agree
with each other. -/
noncomputable def termSolutions (c : Candidate) (terms : Position → RdfTerm) :
    List Position → Multiset Solution
  | [] => {Solution.empty}
  | p :: rest =>
    match c.queryTerm p with
    | .var name => (termSolutions c terms rest).bind (Solution.single name (terms p)).combine
    | constant =>
      (termSolutions c terms rest).bind (·.keep (RdfTerm.ofConstant? constant = some (terms p)))

theorem termSolutions_cons_var {p : Position} {name : String} (hp : c.queryTerm p = .var name) :
    c.termSolutions terms (p :: positions) =
      (c.termSolutions terms positions).bind (Solution.single name (terms p)).combine := by
  rw [termSolutions, hp]

theorem termSolutions_cons_constant {p : Position} (hp : ∀ name, c.queryTerm p ≠ .var name) :
    c.termSolutions terms (p :: positions) = (c.termSolutions terms positions).bind
      (·.keep (RdfTerm.ofConstant? (c.queryTerm p) = some (terms p))) := by
  rw [termSolutions]
  split
  · rename_i name hname
    exact absurd hname (hp name)
  · rfl

/-- Terms at positions are those of the constants there, and equal where a variable is repeated. -/
structure Fits (c : Candidate) (terms : Position → RdfTerm) (positions : List Position) : Prop where
  constants : ∀ p ∈ positions, ∀ x, RdfTerm.ofConstant? (c.queryTerm p) = some x → terms p = x
  repeated : ∀ p ∈ positions, ∀ q ∈ positions, ∀ name, c.queryTerm p = .var name →
    c.queryTerm q = .var name → terms p = terms q

/-- The terms of the variables at positions, each from the first of its positions. -/
def firstTerms (c : Candidate) (terms : Position → RdfTerm) (positions : List Position) :
    Solution :=
  fun name => (positions.find? (c.queryTerm · = .var name)).map terms

theorem fits_cons_var {p : Position} {name : String} (hp : c.queryTerm p = .var name) :
    c.Fits terms (p :: positions) ↔ c.Fits terms positions ∧
      ∀ q ∈ positions, c.queryTerm q = .var name → terms q = terms p := by
  constructor
  · intro h
    refine ⟨⟨fun q hq => h.constants q (List.mem_cons_of_mem _ hq), fun q hq r hr =>
      h.repeated q (List.mem_cons_of_mem _ hq) r (List.mem_cons_of_mem _ hr)⟩, fun q hq hname => ?_⟩
    exact h.repeated q (List.mem_cons_of_mem _ hq) p List.mem_cons_self name hname hp
  · rintro ⟨h, hsame⟩
    have hsame' : ∀ q ∈ positions, ∀ name', c.queryTerm p = .var name' →
        c.queryTerm q = .var name' → terms q = terms p := by
      intro q hq name' hp' hname
      cases hp.symm.trans hp'
      exact hsame q hq hname
    refine ⟨List.forall_mem_cons.mpr ⟨fun x hx => ?_, h.constants⟩,
      List.forall_mem_cons.mpr ⟨?_, fun q hq => List.forall_mem_cons.mpr ⟨?_, h.repeated q hq⟩⟩⟩
    · rw [hp] at hx
      cases hx
    · refine List.forall_mem_cons.mpr ⟨fun _ _ _ => rfl, fun q hq name' hp' hname => ?_⟩
      exact (hsame' q hq name' hp' hname).symm
    · exact fun name' hname hp' => hsame' q hq name' hp' hname

theorem fits_cons_constant {p : Position} {x : RdfTerm}
    (hp : RdfTerm.ofConstant? (c.queryTerm p) = some x) :
    c.Fits terms (p :: positions) ↔ c.Fits terms positions ∧ x = terms p := by
  have hvar : ∀ name, c.queryTerm p ≠ .var name := by
    intro name hname
    rw [hname] at hp
    cases hp
  constructor
  · intro h
    refine ⟨⟨fun q hq => h.constants q (List.mem_cons_of_mem _ hq), fun q hq r hr =>
      h.repeated q (List.mem_cons_of_mem _ hq) r (List.mem_cons_of_mem _ hr)⟩, ?_⟩
    exact (h.constants p List.mem_cons_self x hp).symm
  · rintro ⟨h, rfl⟩
    refine ⟨List.forall_mem_cons.mpr ⟨fun y hy => Option.some_inj.mp (hp.symm.trans hy),
      h.constants⟩, List.forall_mem_cons.mpr ⟨?_, fun q hq => List.forall_mem_cons.mpr
        ⟨?_, h.repeated q hq⟩⟩⟩
    · exact fun _ _ name hname => absurd hname (hvar name)
    · exact fun name _ hname => absurd hname (hvar name)

/-- A variable agrees with its terms at later positions exactly if they are all the same. -/
theorem Fits.agree_iff (h : c.Fits terms positions) {name : String} {x : RdfTerm} :
    Solution.Agree (some x) (c.firstTerms terms positions name) ↔
      ∀ q ∈ positions, c.queryTerm q = .var name → terms q = x := by
  unfold firstTerms
  cases hfind : positions.find? (c.queryTerm · = .var name) with
  | none =>
    have hnone := List.find?_eq_none.mp hfind
    refine iff_of_true (.inr (.inl rfl)) fun q hq hname => ?_
    exact absurd (decide_eq_true hname) (hnone q hq)
  | some q =>
    have hq : c.queryTerm q = .var name := by simpa using List.find?_some hfind
    have hmem := List.mem_of_find?_eq_some hfind
    rw [Option.map_some]
    constructor
    · rintro (hx | hx | hx)
      · cases hx
      · cases hx
      · cases hx
        exact fun r hr hname => h.repeated r hr q hmem name hname hq
    · intro hall
      rw [hall q hmem hq]
      exact .inr (.inr rfl)

theorem termSolutions_eq_keep (c : Candidate) (terms : Position → RdfTerm)
    (positions : List Position) : c.termSolutions terms positions =
      (c.firstTerms terms positions).keep (c.Fits terms positions) := by
  induction positions with
  | nil =>
    refine (Solution.keep_of ⟨?_, ?_⟩).symm
    · exact fun _ hp => absurd hp List.not_mem_nil
    · exact fun _ hp => absurd hp List.not_mem_nil
  | cons p positions ih =>
    by_cases hp : ∃ name, c.queryTerm p = .var name
    · obtain ⟨name, hp⟩ := hp
      have hmerge : (Solution.single name (terms p)).merge (c.firstTerms terms positions) =
          c.firstTerms terms (p :: positions) := by
        funext x
        by_cases hx : x = name
        · subst hx
          simp [Solution.merge, Solution.single, firstTerms, hp]
        · simp [Solution.merge, Solution.single, firstTerms, hp, hx, Ne.symm hx]
      rw [termSolutions_cons_var hp, ih, fits_cons_var hp]
      by_cases hfits : c.Fits terms positions
      · rw [Solution.keep_of hfits, Multiset.singleton_bind, Solution.combine_single_left, hmerge]
        refine Solution.keep_congr (hfits.agree_iff.trans (and_iff_right hfits).symm)
      · rw [Solution.keep_of_not hfits, Multiset.zero_bind, Solution.keep_of_not fun h => hfits h.1]
    · have hvar : ∀ name, c.queryTerm p ≠ .var name := fun name hname => hp ⟨name, hname⟩
      obtain ⟨x, hx⟩ : ∃ x, RdfTerm.ofConstant? (c.queryTerm p) = some x := by
        cases hp : c.queryTerm p with
        | var name => exact absurd hp (hvar name)
        | iri i => exact ⟨_, rfl⟩
        | literal l => exact ⟨_, rfl⟩
      have hfirst : c.firstTerms terms (p :: positions) = c.firstTerms terms positions := by
        funext name
        rw [firstTerms, List.find?_cons_of_neg (by simpa using hvar name), firstTerms]
      rw [termSolutions_cons_constant hvar, ih, fits_cons_constant hx, Solution.keep_bind_keep, hx,
        Option.some_inj, hfirst]

end Candidate

namespace BoundTerm

variable {constant : Term} {a : BoundTerm} {columns : ColumnIndex} {row : Row String}

/-- A constant of a pattern is an IRI or a literal with its text. -/
theorem ofTerm?_cases (h : ofTerm? constant = some a) :
    (∃ i, constant = .iri i ∧ a = ⟨.ofText i true, .iri⟩) ∨
      ∃ l, constant = .literal l ∧ a = ⟨.ofText l.value false, .ofLiteral l⟩ := by
  cases constant with
  | var name => cases h
  | iri i =>
    cases h
    exact .inl ⟨i, rfl, rfl⟩
  | literal l =>
    cases h
    exact .inr ⟨l, rfl, rfl⟩

theorem escaped_ofTerm? (h : ofTerm? constant = some a) (hiri : a.shape.termType = .iri) :
    a.pattern.escaped = true := by
  obtain ⟨i, -, rfl⟩ | ⟨l, -, rfl⟩ := ofTerm?_cases h
  · rfl
  · cases hiri

theorem onRow_ofTerm? (h : ofTerm? constant = some a) :
    a.onRow columns row = ⟨a.shape, a.textOn columns row⟩ := by
  obtain ⟨i, -, rfl⟩ | ⟨l, -, rfl⟩ := ofTerm?_cases h
  · rw [onRow, Pattern.spelled, Pattern.render_ofText, textOn, Pattern.render_ofText]
  · exact onRow_of_plain rfl

theorem ofConstant?_eq (h : ofTerm? constant = some a) (columns : ColumnIndex) (row : Row String) :
    RdfTerm.ofConstant? constant = some (a.onRow columns row) := by
  rw [onRow_ofTerm? h, textOn]
  obtain ⟨i, rfl, rfl⟩ | ⟨l, rfl, rfl⟩ := ofTerm?_cases h
  · rw [Pattern.render_ofText]
    rfl
  · rw [Pattern.render_ofText]
    rfl

theorem legible_ofTerm? (h : ofTerm? constant = some a)
    (hiri : ∀ i, constant = .iri i → '%' ∉ i.toList) (ρ : Slots) : a.pattern.Legible ρ := by
  obtain ⟨i, hi, rfl⟩ | ⟨l, -, rfl⟩ := ofTerm?_cases h
  · exact Pattern.legible_ofText fun _ => hiri i hi
  · exact Pattern.legible_ofText nofun

end BoundTerm

namespace Draft

open DraftBuilder

variable {E : Setting} {t T : VariableTable} {d d' : Draft} {vs : List Variable} {c : Candidate}

/-- The terms of a candidate can be read from the values of the answers. -/
structure Offers (E : Setting) (t : VariableTable) (d : Draft) (vs : List Variable)
    (c : Candidate) : Prop where
  readsFrom : ∀ p, (Binding.term (c.term p)).ReadsFrom d.columns vs
  legible : ∀ T, t <+: T → ∀ x ∈ d.answers E T vs, ∀ p,
    (c.term p).pattern.Legible (d.columns.slots x.2)
  true : ∀ T, t <+: T → ∀ x ∈ d.answers E T vs, ∀ p name, c.queryTerm p = .var name →
    (c.term p).TrueOf E d.columns x.2 name
  constants : ∀ p i, c.queryTerm p = .iri i → '%' ∉ i.toList

theorem Offers.of_yields {t' : VariableTable} {step : Solution → Row String → Multiset Solution}
    (h : d.Offers E t vs c) (ht : t <+: t') (hd' : d.Yields E t vs step d' t') :
    d'.Offers E t' vs c := by
  have hmem : ∀ T, t' <+: T → ∀ x ∈ d'.answers E T vs, ∃ y ∈ d.answers E T vs, x.2 = y.2 := by
    intro T hT x hx
    rw [hd'.answers T hT] at hx
    obtain ⟨y, hy, hx⟩ := Multiset.mem_bind.mp hx
    obtain ⟨a, -, rfl⟩ := Multiset.mem_map.mp hx
    exact ⟨y, hy, rfl⟩
  refine ⟨hd'.columns ▸ h.readsFrom, fun T hT x hx => ?_, fun T hT x hx => ?_, h.constants⟩
  · obtain ⟨y, hy, heq⟩ := hmem T hT x hx
    rw [hd'.columns, heq]
    exact h.legible T (ht.trans hT) y hy
  · obtain ⟨y, hy, heq⟩ := hmem T hT x hx
    rw [hd'.columns, heq]
    exact h.true T (ht.trans hT) y hy

theorem covers_of_readsFrom {b : BoundTerm} (h : (Binding.term b).ReadsFrom d.columns vs) :
    d.columns.Covers b.pattern := fun s hs => by
  obtain ⟨v, -, hv⟩ := h s hs
  exact hv ▸ rfl

theorem Offers.waits (h : d.Offers E t vs c) {p : Position} {name : String}
    (hp : c.queryTerm p = .var name) : d.Waits E t vs name (.term (c.term p)) where
  inScope := covers_of_readsFrom (h.readsFrom p)
  readsFrom := h.readsFrom p
  true := fun T hT x hx => h.true T hT x hx p name hp

/-- The condition for a constant of the pattern keeps the answers with that term. -/
theorem Offers.equality_yields (h : d.Tracks E t) (hc : d.Offers E t vs c)
    {p : Position} {a : BoundTerm} (ha : BoundTerm.ofTerm? (c.queryTerm p) = some a) :
    (a.equality d.columns (c.term p)).Meets Fault.Excluded fun condition =>
      d.Yields E t vs (fun s row => s.keep (RdfTerm.ofConstant? (c.queryTerm p) =
        some ((c.term p).onRow d.columns row))) (d.addFilter condition) t := by
  refine ((BoundTerm.equality_meets h.sound.within (BoundTerm.covers_ofTerm? ha)
    (covers_of_readsFrom (hc.readsFrom p))).and
    (BoundTerm.equality_eval E.textual a (c.term p))).mono
    fun condition hcondition => h.addFilter_yields hcondition.1 fun T hT row hrow => ?_
  have hrestrict : ∀ v ∈ vs, row v = row.restrict vs v := fun v hv => (Row.restrict_of_mem hv).symm
  have hterm : (c.term p).onRow d.columns row = (c.term p).onRow d.columns (row.restrict vs) :=
    (hc.readsFrom p).onRow_eq (fun _ _ h => h) hrestrict
  have hlegible := (hc.readsFrom p).legible (fun _ _ h => h) hrestrict
    (hc.legible T hT _ (Multiset.mem_map_of_mem _ hrow) p)
  have hconstant := BoundTerm.legible_ofTerm? ha (hc.constants p) (d.columns.slots row)
  rw [hcondition.2 row hconstant hlegible fun hescaped hshape => ?_, hterm,
    BoundTerm.ofConstant?_eq ha d.columns row, Option.some_inj]
  -- An IRI of the pattern is the text of a column then, which is not encoded.
  have hplain : (c.term p).pattern.escaped = false := by
    cases hp : (c.term p).pattern.escaped with
    | false => rfl
    | true =>
      have hiri : a.shape.termType = .iri := by
        rw [hshape]
        exact TermMap.termType_of_escaped hp
      exact absurd ((BoundTerm.escaped_ofTerm? ha hiri).trans hp.symm) hescaped
  rw [BoundTerm.onRow_of_plain hplain, BoundTerm.onRow_ofTerm? ha, hshape, RdfTerm.mk.injEq,
    eq_self_iff_true, true_and]

/-- The terms of a candidate extend each answer by the solution that they make. -/
theorem addTerms_yields {positions : List Position} (h : d.Tracks E t) (hvs : vs ⊆ d.vars)
    (hc : d.Offers E t vs c) :
    (addTerms c d positions).Builds Fault.Excluded t (d.Yields E t vs fun a row =>
      (c.termSolutions (fun p => (c.term p).onRow d.columns row) positions).bind a.combine) := by
  induction positions generalizing d t with
  | nil =>
    refine builds_pure ((yields_self h).congr (List.prefix_refl t) fun _ _ _ _ => ?_)
    rw [Candidate.termSolutions, Multiset.singleton_bind, Solution.combine_empty_right]
  | cons p positions ih =>
    have hrest : ∀ {t' d' step}, t <+: t' → d.Yields E t vs step d' t' →
        (addTerms c d' positions).Builds Fault.Excluded t' (d.Yields E t vs fun a row =>
          (step a row).bind fun a => (c.termSolutions (fun p => (c.term p).onRow d.columns row)
            positions).bind a.combine) := by
      intro t' d' step ht hd'
      refine (ih hd'.tracks (List.Subset.trans hvs hd'.grows.vars) (hc.of_yields ht hd')).mono
        fun d'' t'' ht' hd'' => ?_
      have hyields := hd'.trans ht ht' hd''
      rwa [hd'.columns] at hyields
    rw [addTerms]
    split
    · rename_i name hp
      refine (bind_yields h hvs (hc.waits hp)).bind fun d' t' ht hd' => ?_
      refine (hrest ht hd').mono fun d'' t'' ht' hd'' => hd''.congr (ht.trans ht') fun _ _ x _ => ?_
      rw [Solution.combine_bind_combine, Candidate.termSolutions_cons_var hp]
      rfl
    · rename_i hvar
      split
      · rename_i a ha
        refine builds_lift_bind (hc.equality_yields h ha) fun condition hcondition => ?_
        refine (hrest (List.prefix_refl t) hcondition).mono fun d'' t'' ht' hd'' =>
          hd''.congr ht' fun _ _ x _ => ?_
        rw [Candidate.termSolutions_cons_constant hvar, Solution.keep_bind_combine]
      · rename_i hnone
        cases hp : c.queryTerm p with
        | var name => exact absurd hp (hvar name)
        | iri i => simp [hp, BoundTerm.ofTerm?] at hnone
        | literal l => simp [hp, BoundTerm.ofTerm?] at hnone

end Draft

/-- Values stand for themselves, and no expression is given a meaning. -/
def Interpretation.literal : Interpretation String :=
  ⟨fun _ text => text, fun _ _ => False, fun _ _ => none⟩

/-- The values of a table are canonical texts of the types of their columns. -/
def LogicalTable.Canonical (db : Database String) (table : LogicalTable) : Prop :=
  ∀ row ∈ db table.source, ∀ name text, row name = some text →
    (table.columnType name).isLexical text = true

/-- Columns that a table declares not to be null are not null. -/
def LogicalTable.KeepsNulls (db : Database String) (table : LogicalTable) : Prop :=
  ∀ row ∈ db table.source, ∀ name, table.isNullable name = false → row name ≠ none

/-- The IRIs that a triple of a query is written with. -/
def TriplePattern.iris (t : TriplePattern) : List String :=
  t.terms.filterMap fun
    | .iri i => some i
    | _ => none

namespace Candidate

variable {E : Setting} {c : Candidate} {t T : VariableTable} {d : Draft}
variable {choice : RowChoice String} {column : Nat × String}

theorem mem_iris {p : Position} {i : String} (h : c.queryTerm p = .iri i) : i ∈ c.pattern.iris := by
  refine List.mem_filterMap.mpr ⟨c.queryTerm p, ?_, by rw [h]⟩
  cases p <;> simp [queryTerm, TriplePattern.terms]

/-- The IRIs of a candidate and of its triple are written with no percent sign. -/
structure Spelled (c : Candidate) : Prop where
  terms : ∀ p ∈ Position.all, (c.source p).1.termType = .iri →
    ∀ s ∈ (c.source p).1.constants, '%' ∉ s.toList
  query : ∀ i ∈ c.pattern.iris, '%' ∉ i.toList

instance (c : Candidate) : Decidable c.Spelled :=
  decidable_of_iff (_ ∧ _) ⟨fun h => Spelled.mk h.1 h.2, fun h => ⟨h.terms, h.query⟩⟩

/-- The text that shows the term which the rows make at a position. -/
def shownText (choice : RowChoice String) (c : Candidate) (p : Position) : String :=
  (c.source p).1.shownText .literal (c.source p).2.2 (choice (c.source p).2.1)

/-- The terms of a candidate can be made from texts, and those of query variables are shown by them
and told as far as this is asked for. -/
structure Legible (E : Setting) (c : Candidate) : Prop where
  sourced : ∀ p, (c.source p).2 ∈ c.rows
  tables : ∀ r ∈ c.rows, r.2.Canonical E.db
  nulls : ∀ r ∈ c.rows, r.2.KeepsNulls E.db
  spelled : c.Spelled
  shown : ∀ choice ∈ RowChoice.all E.db c.rows,
    (∀ column ∈ c.columns, choice column.1 column.2 ≠ none) → ∀ p name, c.queryTerm p = .var name →
      E.shown (c.rowTerm .literal choice p) = c.shownText choice p ∧
        (E.valued name → E.told name (c.shownText choice p) = c.rowTerm .literal choice p)

theorem Spelled.noPercent (h : c.Spelled) {p : Position}
    (hescaped : (c.term p).pattern.escaped = true) : .char '%' ∉ (c.term p).pattern.symbols := by
  intro hchar
  obtain ⟨s, hs, hpercent⟩ := TermMap.mem_constants_of_char hchar
  exact h.terms p (mem_all p) (TermMap.termType_of_escaped hescaped) s hs hpercent

theorem nodup_columns (c : Candidate) : c.columns.Nodup := by
  have hfold : ∀ {l seen : List (Nat × String)}, seen.Nodup →
      (l.foldl (fun seen c => if seen.contains c then seen else seen ++ [c]) seen).Nodup := by
    intro l
    induction l with
    | nil => exact fun h => h
    | cons a l ih =>
      intro seen h
      rw [List.foldl_cons]
      split
      · exact ih h
      · rename_i ha
        refine ih (h.append (List.nodup_singleton a) (List.disjoint_singleton.mpr fun hmem => ?_))
        exact ha (List.contains_iff_mem.mpr hmem)
  exact hfold List.nodup_nil

theorem nodup_rows (c : Candidate) : (c.rows.map (·.1)).Nodup := by
  unfold rows
  split
  · split
    · exact List.nodup_singleton _
    · rename_i hrow
      simpa using Ne.symm hrow
  · exact List.nodup_singleton _

/-- The columns of a candidate with the variables that they are read into. -/
def newColumns (c : Candidate) (t : VariableTable) : ColumnIndex := c.columns.zipIdx t.length

theorem mem_map_newColumns : column ∈ (c.newColumns t).map (·.1) ↔ column ∈ c.columns := by
  rw [newColumns, List.zipIdx_map_fst]

theorem nodup_newColumns (c : Candidate) (t : VariableTable) :
    ((c.newColumns t).map (·.2)).Nodup := by
  rw [newColumns, List.zipIdx_map_snd]
  exact List.nodup_range'

/-- A column of a candidate is read into a variable that has its value. -/
theorem lookup_newColumns (t : VariableTable) (hcolumn : column ∈ c.columns) :
    ∃ v ∈ (c.newColumns t).map (·.2), (c.newColumns t).lookup column = some v ∧
      ∀ choice, Row.ofChoice (c.newColumns t) choice v = choice column.1 column.2 := by
  obtain ⟨e, he, heq⟩ := List.mem_map.mp (mem_map_newColumns (t := t).mpr hcolumn)
  obtain ⟨v, hv⟩ : ∃ v, (c.newColumns t).lookup column = some v :=
    Option.isSome_iff_exists.mp (List.lookup_isSome_iff.mpr ⟨e, he, by simp [heq]⟩)
  have hmem := mem_of_lookup hv
  exact ⟨v, List.mem_map_of_mem hmem, hv, fun choice =>
    Row.ofChoice_of_mem (c.nodup_newColumns t) hmem⟩

theorem reads_newColumns (h : d.Sound t) (hT : t ++ c.columns.map (Draft.columnInfo c.rows) <+: T) :
    d.Reads T c.rows (c.newColumns t) := by
  refine ⟨c.nodup_rows, c.nodup_newColumns t, fun v hv hmem => ?_, fun e he => ?_, fun e he => ?_⟩
  · rw [newColumns, List.zipIdx_map_snd, List.mem_range'_1] at hv
    exact Nat.not_lt_of_le hv.1 (h.taken v hmem)
  · obtain ⟨rest, rfl⟩ := hT
    obtain ⟨hle, hlt, hcolumn⟩ := List.mem_zipIdx he
    have hinfo : (t ++ c.columns.map (Draft.columnInfo c.rows) ++ rest)[e.2]? =
        some (Draft.columnInfo c.rows e.1) := by
      rw [List.append_assoc, List.getElem?_append_right hle, List.getElem?_append_left
        (by rw [List.length_map]; omega), List.getElem?_map, List.getElem?_eq_getElem (by omega),
        ← hcolumn, Option.map_some]
    rw [VariableTable.info, hinfo, Option.getD_some, Draft.columnInfo]
    split <;> rfl
  · exact row_mem_columns (mem_map_newColumns.mp (List.mem_map_of_mem he))

/-- A draft that reads none of the rows of a candidate finds its columns among the new ones. -/
theorem exists_lookup_newColumns (h : d.Tracks E t)
    (hfresh : ∀ n ∈ c.rows.map (·.1), n ∉ d.tables.map (·.row)) (hcolumn : column ∈ c.columns) :
    ∃ v ∈ (c.newColumns t).map (·.2),
      (d.reading c.rows (c.newColumns t)).columns.lookup column = some v ∧
        ∀ choice, Row.ofChoice (c.newColumns t) choice v = choice column.1 column.2 := by
  have hunread : d.columns.lookup column = none := by
    rw [List.lookup_eq_none_iff]
    intro e he
    refine bne_iff_ne.mpr fun heq => ?_
    exact hfresh _ (row_mem_columns hcolumn) (heq ▸ h.numbered e he)
  obtain ⟨v, hv, hlookup, hvalue⟩ := lookup_newColumns t hcolumn
  refine ⟨v, hv, ?_, hvalue⟩
  exact List.lookup_append.trans (by rw [hunread, Option.none_or, hlookup])

/-- The choices that pass the guards are those without a null in a column that is read. -/
theorem Legible.guarded_iff (hc : c.Legible E) (hchoice : choice ∈ RowChoice.all E.db c.rows) :
    Draft.Guarded c.rows (c.newColumns t) choice ↔
      ∀ column ∈ c.columns, choice column.1 column.2 ≠ none := by
  constructor
  · intro hguarded column hcolumn
    obtain ⟨e, he, rfl⟩ := List.mem_map.mp (mem_map_newColumns (t := t).mpr hcolumn)
    have hsome : (c.rows.lookup e.1.1).isSome := by
      obtain ⟨r, hr, heq⟩ := List.mem_map.mp (row_mem_columns hcolumn)
      exact List.lookup_isSome_iff.mpr ⟨r, hr, by simp [heq]⟩
    obtain ⟨table, htable⟩ := Option.isSome_iff_exists.mp hsome
    have hmem := mem_of_lookup htable
    cases hnull : table.isNullable e.1.2 with
    | true => exact hguarded e he (by simp only [Draft.columnInfo, htable, hnull])
    | false =>
      have hrow := RowChoice.mem_all c.nodup_rows hchoice hmem
      exact hc.nulls _ hmem _ hrow _ hnull
  · intro hall e he _
    exact hall e.1 (mem_map_newColumns.mp (List.mem_map_of_mem he))

/-- A slot of a term is filled by a value that is written as its type prescribes. -/
theorem Legible.slot (hc : c.Legible E) (hchoice : choice ∈ RowChoice.all E.db c.rows)
    {p : Position} {s : Slot} (hs : .slot s ∈ (c.term p).pattern.symbols) {text : String}
    (htext : choice s.row s.column = some text) : s.type.isLexical text = true := by
  obtain ⟨hrow, -, htype⟩ := slot_mem_toPattern hs
  have hmem := RowChoice.mem_all c.nodup_rows hchoice (hc.sourced p)
  rw [hrow] at htext
  rw [htype]
  exact hc.tables _ (hc.sourced p) _ hmem _ _ htext

section

variable (h : d.Tracks E t) (hfresh : ∀ n ∈ c.rows.map (·.1), n ∉ d.tables.map (·.row))

include h hfresh

/-- The slots of a position are filled from the rows. -/
theorem slots_reading (choice : RowChoice String) {p : Position} {s : Slot}
    (hs : .slot s ∈ (c.term p).pattern.symbols) :
    (d.reading c.rows (c.newColumns t)).columns.slots (Row.ofChoice (c.newColumns t) choice) s =
      choice (c.source p).2.1 s.column := by
  obtain ⟨v, -, hlookup, hvalue⟩ := exists_lookup_newColumns h hfresh (slot_mem_columns hs)
  have hrow : s.row = (c.source p).2.1 := (slot_mem_toPattern hs).1
  rw [ColumnIndex.slots, hlookup, Option.bind_some, hvalue, hrow]

/-- The term that a draft reads for a position is the one that the rows make. -/
theorem onRow_reading (choice : RowChoice String) (p : Position) :
    (c.term p).onRow (d.reading c.rows (c.newColumns t)).columns
      (Row.ofChoice (c.newColumns t) choice) = c.rowTerm .literal choice p := by
  refine congrArg (RdfTerm.mk _) ?_
  rw [TermMap.rowText_eq_render _ (c.source p).2.1]
  refine Pattern.render_congr fun s hs => ?_
  have hfill := congrArg (·.getD "") (slots_reading h hfresh choice hs)
  rw [TermMap.fill]
  show _ = if (c.term p).pattern.escaped = true then _ else _
  rw [show (choice (c.source p).2.1 s.column).map (Interpretation.literal.text s.type) =
    choice (c.source p).2.1 s.column from Option.map_id']
  split
  · exact congrArg Text.percentEncode hfill
  · exact hfill

/-- The text that a draft computes for a position is the one that the rows show. -/
theorem textOn_reading (choice : RowChoice String) (p : Position) :
    (c.term p).textOn (d.reading c.rows (c.newColumns t)).columns
      (Row.ofChoice (c.newColumns t) choice) = c.shownText choice p := by
  rw [shownText, TermMap.shownText_eq_render _ (c.source p).2.1]
  refine Pattern.render_congr fun s hs => ?_
  refine (congrArg (·.getD "") (slots_reading h hfresh choice hs)).trans ?_
  exact congrArg (·.getD "") Option.map_id'.symm

variable (hc : c.Legible E)

include hc

open Classical in
/-- After its columns are read, the terms of a candidate can be bound. -/
theorem Legible.offers : (d.reading c.rows (c.newColumns t)).Offers E
    (t ++ c.columns.map (Draft.columnInfo c.rows)) ((c.newColumns t).map (·.2)) c := by
  have hchoice : ∀ T, t ++ c.columns.map (Draft.columnInfo c.rows) <+: T →
      ∀ x ∈ (d.reading c.rows (c.newColumns t)).answers E T ((c.newColumns t).map (·.2)),
        ∃ choice ∈ RowChoice.all E.db c.rows,
          (∀ column ∈ c.columns, choice column.1 column.2 ≠ none) ∧
            x.2 = Row.ofChoice (c.newColumns t) choice := by
    intro T hT x hx
    have hsound := h.sound.mono ((List.prefix_append t _).trans hT)
    rw [hsound.answers_reading (reads_newColumns h.sound hT)] at hx
    obtain ⟨a, -, hx⟩ := Multiset.mem_bind.mp hx
    obtain ⟨choice, hmem, rfl⟩ := Multiset.mem_map.mp hx
    obtain ⟨hmem, hguarded⟩ := Multiset.mem_filter.mp hmem
    exact ⟨choice, hmem, (hc.guarded_iff hmem).mp hguarded, rfl⟩
  have hlegible : ∀ T, t ++ c.columns.map (Draft.columnInfo c.rows) <+: T →
      ∀ x ∈ (d.reading c.rows (c.newColumns t)).answers E T ((c.newColumns t).map (·.2)), ∀ p,
        (c.term p).pattern.Legible
          ((d.reading c.rows (c.newColumns t)).columns.slots x.2) := by
    intro T hT x hx p
    refine ⟨fun s hs => ?_, hc.spelled.noPercent⟩
    obtain ⟨choice, hmem, hnulls, hx⟩ := hchoice T hT x hx
    obtain ⟨text, htext⟩ := Option.ne_none_iff_exists'.mp (hnulls _ (slot_mem_columns hs))
    have hrow : s.row = (c.source p).2.1 := (slot_mem_toPattern hs).1
    refine ⟨text, ?_, hc.slot hmem hs htext⟩
    rw [hx, slots_reading h hfresh choice hs, ← hrow, htext]
  refine ⟨fun p s hs => ?_, hlegible, fun T hT x hx p name hname => ?_,
    fun _ i hi => hc.spelled.query i (mem_iris hi)⟩
  · obtain ⟨v, hv, hlookup, -⟩ := exists_lookup_newColumns h hfresh (slot_mem_columns hs)
    exact ⟨v, hv, hlookup⟩
  · have hlegible := hlegible T hT x hx p
    obtain ⟨choice, hmem, hnulls, hx⟩ := hchoice T hT x hx
    rw [hx] at hlegible ⊢
    obtain ⟨hshown, htold⟩ := hc.shown choice hmem hnulls p name hname
    refine ⟨hlegible, ?_, ?_⟩
    · rw [onRow_reading h hfresh, textOn_reading h hfresh, hshown]
    · rw [onRow_reading h hfresh, textOn_reading h hfresh]
      exact htold

end

/-- The solutions of a candidate, choice by choice. -/
theorem solutions_eq_bind (c : Candidate) (I : Interpretation String) (db : Database String) :
    c.solutions I db = (RowChoice.all db c.rows).bind fun choice =>
      (c.solution I choice).keep (c.Admits I choice) := by
  rw [solutions, ← Multiset.bind_singleton, Multiset.bind_filter]
  refine Multiset.bind_congr fun choice _ => ?_
  split
  · rename_i hadmits
    exact (Solution.keep_of hadmits).symm
  · rename_i hadmits
    exact (Solution.keep_of_not hadmits).symm

theorem admits_iff {I : Interpretation String} : c.Admits I choice ↔
    (∀ column ∈ c.columns, choice column.1 column.2 ≠ none) ∧
      (∀ j ∈ c.joins, choice j.1.1 j.1.2 = choice j.2.1 j.2.2) ∧
        c.Fits (c.rowTerm I choice) Position.all := by
  constructor
  · intro h
    exact ⟨h.columns, h.joins, fun p _ => h.constants p, fun p _ q _ => h.repeated p q⟩
  · rintro ⟨hcolumns, hjoins, hfits⟩
    exact ⟨hcolumns, hjoins, fun p => hfits.constants p (mem_all p),
      fun p q => hfits.repeated p (mem_all p) q (mem_all q)⟩

end Candidate

namespace Draft

open DraftBuilder

variable {E : Setting} {t T : VariableTable} {d d' d'' : Draft} {rows : List Nat}
variable {S S' : Multiset Solution}

/-- A draft turns into another whose solutions are its own joined with others, reading further
numbered rows. -/
structure Joins (E : Setting) (t : VariableTable) (d : Draft) (rows : List Nat)
    (S : Multiset Solution) (d' : Draft) (t' : VariableTable) : Prop where
  tracks : d'.Tracks E t'
  grows : d.Grows t d'
  rows : ∀ n ∈ d'.tables.map (·.row), n ∈ d.tables.map (·.row) ∨ n ∈ rows
  solutions : ∀ T, t' <+: T → d'.solutions E T = Solution.join (d.solutions E T) S

theorem newColumns_subset_vars {c : Candidate} :
    (c.newColumns t).map (·.2) ⊆ (d.reading c.rows (c.newColumns t)).vars := by
  intro v hv
  obtain ⟨e, he, rfl⟩ := List.mem_map.mp hv
  have hrow := Candidate.row_mem_columns (Candidate.mem_map_newColumns.mp (List.mem_map_of_mem he))
  have hmem : e.2 ∈ (readTables c.rows (c.newColumns t)).flatMap (·.vars) :=
    mem_vars_readTables.mpr ⟨e, he, hrow, rfl⟩
  refine List.mem_append_left _ (List.mem_append_left _ ?_)
  show e.2 ∈ (d.tables ++ readTables c.rows (c.newColumns t)).flatMap (·.vars)
  rw [List.flatMap_append]
  exact List.mem_append_right _ hmem

/-- The columns of a candidate are read into the next variables. -/
theorem addColumns_tracks {c : Candidate} (h : d.Tracks E t)
    (hfresh : ∀ n ∈ c.rows.map (·.1), n ∉ d.tables.map (·.row)) :
    (addColumns c.rows (c.rows.foldl addRow d) c.columns).Builds Fault.Excluded t fun d' t' =>
      (d'.Tracks E t' ∧ d.Grows t d') ∧ d' = d.reading c.rows (c.newColumns t) ∧
        t' = t ++ c.columns.map (columnInfo c.rows) := by
  have hstart : c.rows.foldl addRow d = d.reading c.rows [] := foldl_addRow c.nodup_rows hfresh
  have hold : ∀ e ∈ d.columns, e.1.1 ∉ c.rows.map (·.1) := fun e he hmem =>
    hfresh _ hmem (h.numbered e he)
  have hlookup : ∀ column ∈ c.columns, (c.rows.lookup column.1).isSome := fun column hcolumn => by
    obtain ⟨row, hrow, heq⟩ := List.mem_map.mp (Candidate.row_mem_columns hcolumn)
    exact List.lookup_isSome_iff.mpr ⟨row, hrow, by simp [heq]⟩
  have htables : ∀ column ∈ c.columns, column.1 ∈ (c.rows.foldl addRow d).tables.map (·.row) :=
    fun column hcolumn => mem_rows_addRows.mpr (.inr (Candidate.row_mem_columns hcolumn))
  obtain ⟨hsound, hgrows⟩ := h.sound.addRows c.rows
  have hreading : (addColumns c.rows (c.rows.foldl addRow d) c.columns).Builds Fault.Any t
      fun d' t' => d' = d.reading c.rows (c.newColumns t) ∧
        t' = t ++ c.columns.map (columnInfo c.rows) := by
    rw [hstart]
    exact addColumns_reading hfresh hold c.nodup_columns
  refine ((addColumns_builds hsound hlookup htables).and hreading).mono fun d' t' ht hd' => ?_
  obtain ⟨⟨⟨hsound', hgrows'⟩, -⟩, rfl, rfl⟩ := hd'
  refine ⟨⟨h.reading ht hsound' fun T hT => Candidate.reads_newColumns h.sound hT, ?_⟩, rfl, rfl⟩
  exact hgrows.trans (List.prefix_refl t) hgrows'

/-- The join conditions of a choice of rows, as they are seen in a draft. -/
theorem columnValue_joins_iff {c : Candidate} (h : d.Tracks E t)
    (hfresh : ∀ n ∈ c.rows.map (·.1), n ∉ d.tables.map (·.row)) {choice : RowChoice String}
    (hnulls : ∀ column ∈ c.columns, choice column.1 column.2 ≠ none) :
    (∀ j ∈ c.joins,
      (d.reading c.rows (c.newColumns t)).columnValue (Row.ofChoice (c.newColumns t) choice) j.1 ≠
          none ∧
        (d.reading c.rows (c.newColumns t)).columnValue (Row.ofChoice (c.newColumns t) choice) j.1 =
          (d.reading c.rows (c.newColumns t)).columnValue (Row.ofChoice (c.newColumns t) choice)
            j.2) ↔
      ∀ j ∈ c.joins, choice j.1.1 j.1.2 = choice j.2.1 j.2.2 := by
  have hvalue : ∀ column ∈ c.columns, (d.reading c.rows (c.newColumns t)).columnValue
      (Row.ofChoice (c.newColumns t) choice) column = choice column.1 column.2 := by
    intro column hcolumn
    obtain ⟨v, -, hlookup, hvalue⟩ := Candidate.exists_lookup_newColumns h hfresh hcolumn
    rw [columnValue, hlookup, Option.bind_some, hvalue]
  refine forall_congr' fun j => forall_congr' fun hj => ?_
  have hchild : j.1 ∈ c.columns := Candidate.mem_columns.mpr (.inr ⟨j, hj, .inl rfl⟩)
  have hparent : j.2 ∈ c.columns := Candidate.mem_columns.mpr (.inr ⟨j, hj, .inr rfl⟩)
  rw [hvalue _ hchild, hvalue _ hparent]
  exact and_iff_right (hnulls _ hchild)

open Classical in
/-- A candidate joins its solutions to those of a draft that does not read its rows. -/
theorem addCandidate_joins {c : Candidate} (h : d.Tracks E t) (hc : c.Legible E)
    (hfresh : ∀ n ∈ c.rows.map (·.1), n ∉ d.tables.map (·.row)) :
    (d.addCandidate c).Builds Fault.Excluded t
      (d.Joins E t (c.rows.map (·.1)) (c.solutions .literal E.db)) := by
  refine (addColumns_tracks h hfresh).bind fun d₁ t₁ ht₁ hd₁ => ?_
  obtain ⟨⟨htracks, hgrows⟩, rfl, rfl⟩ := hd₁
  have hvs := newColumns_subset_vars (d := d) (t := t) (c := c)
  have hjoined : (d.reading c.rows (c.newColumns t)).HasColumns ((c.newColumns t).map (·.2))
      (c.joins.flatMap fun j => [j.1, j.2]) := by
    intro column hcolumn
    obtain ⟨j, hj, hcolumn⟩ := List.mem_flatMap.mp hcolumn
    have hmem : column ∈ c.columns :=
      Candidate.mem_columns.mpr (.inr ⟨j, hj, by simpa using hcolumn⟩)
    obtain ⟨v, hv, hlookup, -⟩ := Candidate.exists_lookup_newColumns h hfresh hmem
    exact ⟨v, hv, hlookup⟩
  refine builds_lift_bind (addJoins_yields htracks hvs hjoined) fun d₂ hd₂ => ?_
  refine (addTerms_yields hd₂.tracks (List.Subset.trans hvs hd₂.grows.vars)
    ((Candidate.Legible.offers h hfresh hc).of_yields (List.prefix_refl _) hd₂)).mono
      fun d₃ t₃ ht₃ hd₃ => ?_
  have hyields := hd₂.trans (List.prefix_refl _) ht₃ hd₃
  refine ⟨hyields.tracks, hgrows.trans ht₁ hyields.grows, fun n hn => ?_, fun T hT => ?_⟩
  · have htables : (readTables c.rows (c.newColumns t)).map (·.row) = c.rows.map (·.1) := by
      rw [readTables, List.map_map]
      rfl
    rw [hyields.tables] at hn
    have hn : n ∈ (d.tables ++ readTables c.rows (c.newColumns t)).map (·.row) := hn
    rwa [List.map_append, htables, List.mem_append] at hn
  · have hsound := h.sound.mono (ht₁.trans (ht₃.trans hT))
    rw [hyields.solutions hT, hsound.answers_reading (Candidate.reads_newColumns h.sound
      (ht₃.trans hT)), Multiset.bind_assoc, Solution.join, c.solutions_eq_bind]
    refine Multiset.bind_congr fun a _ => ?_
    rw [Multiset.bind_map, Multiset.bind_filter, Multiset.bind_assoc]
    refine Multiset.bind_congr fun choice hchoice => ?_
    -- A choice with a null passes no guard and is not admitted.
    by_cases hnulls : ∀ column ∈ c.columns, choice column.1 column.2 ≠ none
    · have hterms : (fun p => (c.term p).onRow d₂.columns (Row.ofChoice (c.newColumns t) choice)) =
          c.rowTerm .literal choice := funext fun p => by
        rw [hd₂.columns]
        exact Candidate.onRow_reading h hfresh choice p
      have hadmits : (c.Fits (c.rowTerm .literal choice) Position.all ∧
          ∀ j ∈ c.joins, choice j.1.1 j.1.2 = choice j.2.1 j.2.2) ↔ c.Admits .literal choice := by
        rw [Candidate.admits_iff, and_iff_right hnulls, and_comm]
      rw [if_pos ((hc.guarded_iff hchoice).mpr hnulls), Solution.keep_bind_combine, hterms,
        Candidate.termSolutions_eq_keep, Solution.keep_bind_keep,
        columnValue_joins_iff h hfresh hnulls, Solution.keep_congr hadmits]
      rfl
    · rw [if_neg fun hguarded => hnulls ((hc.guarded_iff hchoice).mp hguarded),
        Solution.keep_of_not fun hadmits => hnulls hadmits.columns, Multiset.zero_bind]

end Draft

end VirtualGraph
