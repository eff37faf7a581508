import VirtualGraph.Proofs.Bound.Anchored
import VirtualGraph.Proofs.Draft.Rows
import VirtualGraph.Proofs.Draft.Steps
import VirtualGraph.Proofs.Draft.Terms

/-!
# Answers of drafts

Each row of a draft answers the query with a solution: the terms of its bindings. The bindings are
kept faithful to the rows, and then binding a query variable to a term does to the answers what the
algebra of solutions says: each is combined with the solution that binds this one variable, or lost
if the two are not compatible. A binding may read the values of the row that the answer comes from,
so an answer carries the values of the variables that later bindings read.
-/

namespace VirtualGraph

namespace Solution

variable {a b : Solution} {name : String} {term : Option RdfTerm}

theorem or_eq_right_of_agree {x y : Option RdfTerm} (h : Agree x y) (hy : y ≠ none) :
    x.or y = y := by
  obtain rfl | rfl | rfl := h
  · exact Option.none_or
  · exact absurd rfl hy
  · exact Option.or_self

/-- The solution that binds one variable, if there is a term for it. -/
def single (name : String) (term : Option RdfTerm) : Solution :=
  fun x => if x = name then term else none

theorem compatible_single :
    Compatible a (single name term) ↔ Agree (a name) term := by
  constructor
  · intro h
    simpa [single, Agree] using h name
  · intro h x
    by_cases hx : x = name
    · subst hx
      simpa [single, Agree] using h
    · exact .inr (.inl (if_neg hx))

open Classical in
/-- A solution, provided that a condition holds. -/
noncomputable def keep (p : Prop) (a : Solution) : Multiset Solution := if p then {a} else 0

variable {p q : Prop}

theorem keep_of (h : p) : a.keep p = {a} := if_pos h

theorem keep_of_not (h : ¬p) : a.keep p = 0 := if_neg h

theorem keep_congr (h : p ↔ q) : a.keep p = a.keep q := by
  rw [propext h]

theorem keep_bind_keep : (a.keep p).bind (·.keep q) = a.keep (p ∧ q) := by
  by_cases hp : p
  · rw [keep_of hp, Multiset.singleton_bind]
    exact keep_congr (iff_and_self.mpr fun _ => hp)
  · rw [keep_of_not hp, Multiset.zero_bind, keep_of_not fun h => hp h.1]

theorem keep_bind_combine (S : Multiset Solution) :
    (a.keep p).bind (fun a => S.bind a.combine) = (S.bind (·.keep p)).bind a.combine := by
  by_cases hp : p
  · simp only [keep_of hp, Multiset.singleton_bind, bind_singleton_self]
  · simp only [keep_of_not hp, Multiset.bind_zero, Multiset.zero_bind]

theorem combine_single :
    a.combine (single name term) = (a.merge (single name term)).keep (Agree (a name) term) :=
  keep_congr compatible_single

theorem combine_single_left :
    (single name term).combine b = ((single name term).merge b).keep (Agree term (b name)) := by
  refine keep_congr ⟨fun h => ?_, fun h x => ?_⟩
  · simpa [single, Agree] using h name
  · by_cases hx : x = name
    · subst hx
      simpa [single, Agree] using h
    · exact .inl (if_neg hx)

theorem combine_bind_combine (S : Multiset Solution) :
    (a.combine b).bind (fun c => S.bind c.combine) = (S.bind b.combine).bind a.combine := by
  rw [Multiset.bind_bind, Multiset.bind_assoc]
  exact Multiset.bind_congr fun c _ => combine_assoc

end Solution

namespace Bindings

variable {name : String} {b : Binding} {bs : Bindings}

theorem lookup_insert (name : String) (b : Binding) (bs : Bindings) (x : String) :
    (insert name b bs).lookup x = if x = name then some b else bs.lookup x := by
  induction bs with
  | nil => grind [insert]
  | cons e bs ih => grind [insert]

theorem lookup_restrict {names : List String} (h : name ∈ names) :
    (bs.restrict names).lookup name = bs.lookup name := by
  induction bs with
  | nil => rfl
  | cons e bs ih =>
    unfold restrict at ih ⊢
    rw [List.filter_cons]
    split
    · rw [List.lookup_cons, List.lookup_cons, ih]
    · rename_i he
      have hne : name ≠ e.1 := fun heq => he (List.contains_iff_mem.mpr (heq ▸ h))
      rw [ih, List.lookup_cons, beq_false_of_ne hne]

theorem lookup_restrict_of_not_mem {names : List String} (h : name ∉ names) :
    (bs.restrict names).lookup name = none := by
  cases hlookup : (bs.restrict names).lookup name with
  | none => rfl
  | some b =>
    exact absurd (List.contains_iff_mem.mp (List.mem_filter.mp (mem_of_lookup hlookup)).2) h

/-- Bindings in the order of their names, each name once. -/
def Sorted (bs : Bindings) : Prop := bs.Pairwise fun e e' => e.1 < e'.1

theorem Sorted.insert (h : bs.Sorted) (name : String) (b : Binding) :
    (Bindings.insert name b bs).Sorted := by
  induction bs with
  | nil => exact List.pairwise_singleton _ _
  | cons e bs ih =>
    obtain ⟨hfirst, hrest⟩ := List.pairwise_cons.mp h
    unfold Bindings.insert
    split
    · rename_i heq
      exact List.pairwise_cons.mpr ⟨fun e' he' => heq ▸ hfirst e' he', hrest⟩
    · rename_i hne
      split
      · rename_i hlt
        refine List.pairwise_cons.mpr ⟨List.forall_mem_cons.mpr ⟨hlt, fun e' he' => ?_⟩, h⟩
        exact String.lt_trans hlt (hfirst e' he')
      · rename_i hle
        refine List.pairwise_cons.mpr ⟨fun e' he' => ?_, ih hrest⟩
        obtain rfl | he' := mem_insert he'
        · exact Std.lt_of_le_of_ne (String.not_lt.mp hle) (Ne.symm hne)
        · exact hfirst e' he'

theorem Sorted.nodup (h : bs.Sorted) : (bs.map (·.1)).Nodup := by
  refine List.pairwise_map.mpr (h.imp fun hlt heq => ?_)
  exact String.lt_irrefl _ (heq ▸ hlt)

/-- In sorted bindings every entry is the one that its name has. -/
theorem Sorted.lookup_eq (h : bs.Sorted) {e : String × Binding} (he : e ∈ bs) :
    bs.lookup e.1 = some e.2 := by
  induction bs with
  | nil => exact absurd he List.not_mem_nil
  | cons c bs ih =>
    obtain ⟨hfirst, hrest⟩ := List.pairwise_cons.mp h
    obtain rfl | he := List.mem_cons.mp he
    · exact List.lookup_cons_self
    · have hne : e.1 ≠ c.1 := fun heq => String.lt_irrefl e.1 (heq ▸ hfirst e he)
      rw [List.lookup_cons, beq_eq_false_iff_ne.mpr hne]
      exact ih hrest he

end Bindings

namespace Bindings

variable {E : Setting} {columns : ColumnIndex} {row : Row String} {bs : Bindings} {a : Solution}

/-- The solution that bindings make on a row, if they agree. -/
noncomputable def solutions (E : Setting) (columns : ColumnIndex) (row : Row String) :
    Bindings → Multiset Solution
  | [] => {Solution.empty}
  | (name, b) :: rest =>
    (solutions E columns row rest).bind (Solution.single name (b.termOf E columns row name)).combine

/-- Bindings to the terms of a solution make this solution, as far as they go. -/
theorem solutions_eq_filter (h : ∀ e ∈ bs, e.2.termOf E columns row e.1 = a e.1) :
    bs.solutions E columns row = {fun x => if x ∈ bs.map (·.1) then a x else none} := by
  induction bs with
  | nil => rfl
  | cons e bs ih =>
    obtain ⟨name, b⟩ := e
    rw [List.forall_mem_cons] at h
    have hcompatible : Solution.Compatible (.single name (a name))
        fun x => if x ∈ bs.map (·.1) then a x else none := by
      intro x
      by_cases hx : x = name
      · subst hx
        by_cases hmem : x ∈ bs.map (·.1) <;> simp [Solution.single, hmem]
      · exact .inl (if_neg hx)
    rw [solutions, ih h.2, h.1, Multiset.singleton_bind, Solution.combine, if_pos hcompatible]
    refine congrArg _ (funext fun x => ?_)
    by_cases hx : x = name
    · subst hx
      by_cases hmem : x ∈ bs.map (·.1) <;> simp [Solution.merge, Solution.single, hmem]
    · have hmem : x ∈ ((name, b) :: bs).map (·.1) ↔ x ∈ bs.map (·.1) := by
        rw [List.map_cons, List.mem_cons, or_iff_right hx]
      simp only [Solution.merge, Solution.single, if_neg hx, Option.none_or, hmem]

theorem solutions_eq_singleton (h : ∀ e ∈ bs, e.2.termOf E columns row e.1 = a e.1)
    (hnames : ∀ x, x ∉ bs.map (·.1) → a x = none) : bs.solutions E columns row = {a} := by
  rw [solutions_eq_filter h]
  refine congrArg _ (funext fun x => ?_)
  by_cases hx : x ∈ bs.map (·.1)
  · exact if_pos hx
  · rw [if_neg hx, hnames x hx]

end Bindings

namespace Draft

variable {E : Setting} {t T : VariableTable} {d d' d'' : Draft} {vs : List Variable}
variable {name : String} {b : Binding} {row row' : Row String}

/-- The solution that a row of a draft answers with. -/
def solution (E : Setting) (d : Draft) (row : Row String) : Solution := fun name =>
  (d.bindings.lookup name).bind (·.termOf E d.columns row name)

/-- All bindings of a draft are true on a row. -/
def Faithful (E : Setting) (d : Draft) (row : Row String) : Prop :=
  ∀ e ∈ d.bindings, e.2.TrueOf E d.columns row e.1

/-- The rows of a draft. -/
abbrev rowsIn (E : Setting) (T : VariableTable) (d : Draft) : Multiset (Row String) :=
  d.rows E.domain E.db T

/-- The answers of a draft, each with the values of given variables. -/
def answers (E : Setting) (T : VariableTable) (vs : List Variable) (d : Draft) :
    Multiset (Solution × Row String) :=
  (d.rowsIn E T).map fun row => (d.solution E row, row.restrict vs)

/-- The solutions of a draft. -/
def solutions (E : Setting) (T : VariableTable) (d : Draft) : Multiset Solution :=
  (d.rowsIn E T).map (d.solution E)

theorem map_fst_answers (vs : List Variable) : 
    (d.answers E T vs).map Prod.fst = d.solutions E T := by
  rw [answers, Multiset.map_map]
  rfl

/-- The invariant of a draft with respect to its rows, whatever variables are taken later. -/
structure Tracks (E : Setting) (t : VariableTable) (d : Draft) : Prop where
  sound : d.Sound t
  sorted : d.bindings.Sorted
  /-- Columns are read from the rows of the draft only. -/
  numbered : ∀ e ∈ d.columns, e.1.1 ∈ d.tables.map (·.row)
  faithful : ∀ T, t <+: T → ∀ row ∈ d.rowsIn E T, d.Faithful E row

theorem tracks_empty : empty.Tracks E t where
  sound := sound_empty
  sorted := List.Pairwise.nil
  numbered := fun _ he => absurd he List.not_mem_nil
  faithful := fun _ _ _ _ _ he => absurd he List.not_mem_nil

theorem solutions_empty : empty.solutions E T = {Solution.empty} := rfl

theorem Tracks.mono {t' : VariableTable} (h : d.Tracks E t) (ht : t <+: t') : d.Tracks E t' :=
  { h with
    sound := h.sound.mono ht
    faithful := fun T hT => h.faithful T (ht.trans hT) }

/-! ### What rows with the same values have in common -/

theorem Sound.readsFrom (h : d.Sound t) {e : String × Binding} (he : e ∈ d.bindings) :
    e.2.ReadsFrom d.columns d.vars :=
  (h.bindings e he).readsFrom h.within

theorem Sound.solution_congr (h : d.Sound t) (hrow : ∀ v ∈ d.vars, row' v = row v) :
    d.solution E row' = d.solution E row := by
  funext x
  unfold solution
  cases hx : d.bindings.lookup x with
  | none => rfl
  | some b => exact (h.readsFrom (mem_of_lookup hx)).termOf_eq (fun _ _ h => h) hrow

theorem Sound.faithful_congr (h : d.Sound t) (hrow : ∀ v ∈ d.vars, row' v = row v)
    (hfaithful : d.Faithful E row) : d.Faithful E row' :=
  fun e he => (h.readsFrom he).trueOf (fun _ _ h => h) hrow (hfaithful e he)

theorem termOf_restrict (hreads : b.ReadsFrom d.columns vs) :
    b.termOf E d.columns (row.restrict vs) name = b.termOf E d.columns row name :=
  hreads.termOf_eq (fun _ _ h => h) fun _ hv => Row.restrict_of_mem hv

theorem trueOf_restrict (hreads : b.ReadsFrom d.columns vs) :
    b.TrueOf E d.columns (row.restrict vs) name ↔ b.TrueOf E d.columns row name :=
  ⟨hreads.trueOf (fun _ _ h => h) fun _ hv => (Row.restrict_of_mem hv).symm,
    hreads.trueOf (fun _ _ h => h) fun _ hv => Row.restrict_of_mem hv⟩

/-! ### Filters -/

theorem Tracks.addFilter (h : d.Tracks E t) {c : Condition} (hc : c.referenced ⊆ d.vars) :
    (d.addFilter c).Tracks E t :=
  { h with
    sound := h.sound.addFilter hc
    faithful := fun T hT row hrow => by
      rw [rowsIn, rows_addFilter] at hrow
      exact h.faithful T hT row (Multiset.mem_of_mem_filter hrow) }

/-! ### Rows that are carried on -/

/-- Every row of a draft is carried on by one row of another, with all its values and a given
property. -/
def Carries (E : Setting) (T : VariableTable) (d d' : Draft) (P : Row String → Row String → Prop) :
    Prop :=
  ∃ f : Row String → Row String, d'.rowsIn E T = (d.rowsIn E T).map f ∧
    ∀ row ∈ d.rowsIn E T, (∀ v ∈ d.vars, f row v = row v) ∧ P row (f row)

theorem carries_self {P : Row String → Row String → Prop} (h : ∀ row ∈ d.rowsIn E T, P row row) :
    d.Carries E T d P :=
  ⟨id, (Multiset.map_id _).symm, fun row hrow => ⟨fun _ _ => rfl, h row hrow⟩⟩

theorem Sound.carries_assign (h : d.Sound T) {v : Variable} (hv : v ∉ d.vars) (x : Scalar) :
    d.Carries E T (d.assign v x) fun row row' => row' v = x.eval E.domain row := by
  refine ⟨_, h.rows_assign hv, fun row _ => ⟨fun w hw => Row.assign_of_ne ?_, Row.assign_self⟩⟩
  rintro rfl
  exact hv hw

theorem Carries.mono {P Q : Row String → Row String → Prop} (h : d.Carries E T d' P)
    (hPQ : ∀ row ∈ d.rowsIn E T, ∀ row' ∈ d'.rowsIn E T, (∀ v ∈ d.vars, row' v = row v) →
      P row row' → Q row row') : d.Carries E T d' Q := by
  obtain ⟨f, hrows, hf⟩ := h
  refine ⟨f, hrows, fun row hrow => ⟨(hf row hrow).1, ?_⟩⟩
  exact hPQ row hrow _ (hrows ▸ Multiset.mem_map_of_mem f hrow) (hf row hrow).1 (hf row hrow).2

theorem Carries.trans {P Q : Row String → Row String → Prop} (h : d.Carries E T d' P)
    (h' : d'.Carries E T d'' Q) (hvars : d.vars ⊆ d'.vars) :
    d.Carries E T d'' fun row row'' => ∃ row' ∈ d'.rowsIn E T, (∀ v ∈ d.vars, row' v = row v) ∧
      (∀ v ∈ d'.vars, row'' v = row' v) ∧ P row row' ∧ Q row' row'' := by
  obtain ⟨f, hrows, hf⟩ := h
  obtain ⟨g, hrows', hg⟩ := h'
  refine ⟨g ∘ f, by rw [hrows', hrows, Multiset.map_map], fun row hrow => ?_⟩
  have hmem : f row ∈ d'.rowsIn E T := hrows ▸ Multiset.mem_map_of_mem f hrow
  refine ⟨fun v hv => ?_, f row, hmem, (hf row hrow).1, (hg _ hmem).1, (hf row hrow).2,
    (hg _ hmem).2⟩
  exact ((hg _ hmem).1 v (hvars hv)).trans ((hf row hrow).1 v hv)

theorem Carries.exists_of_mem {P : Row String → Row String → Prop} (h : d.Carries E T d' P)
    (hrow' : row' ∈ d'.rowsIn E T) :
    ∃ row ∈ d.rowsIn E T, (∀ v ∈ d.vars, row' v = row v) ∧ P row row' := by
  obtain ⟨f, hrows, hf⟩ := h
  rw [hrows] at hrow'
  obtain ⟨row, hrow, rfl⟩ := Multiset.mem_map.mp hrow'
  exact ⟨row, hrow, hf row hrow⟩

/-- What is read off the rows of a draft is read off the rows that carry them on. -/
theorem Carries.map_rows {β : Type} {P : Row String → Row String → Prop} (h : d.Carries E T d' P)
    {g g' : Row String → β} (hg : ∀ row ∈ d.rowsIn E T, ∀ row', (∀ v ∈ d.vars, row' v = row v) →
      P row row' → g' row' = g row) : (d'.rowsIn E T).map g' = (d.rowsIn E T).map g := by
  obtain ⟨f, hrows, hf⟩ := h
  rw [hrows, Multiset.map_map]
  exact Multiset.map_congr rfl fun row hrow => hg row hrow _ (hf row hrow).1 (hf row hrow).2

/-! ### Bindings -/

/-- Of two bindings that agree, the common one has the term of either. -/
theorem merge_carries (h : d.Sound t) {existing new : Binding}
    (hexisting : existing.InScope d.columns d.vars) (hnew : new.InScope d.columns d.vars) :
    (d.merge existing new).Builds Fault.Any t fun r t' =>
      (r.1.bindings = d.bindings ∧ r.1.columns = d.columns ∧ r.1.tables = d.tables) ∧
      ∀ T, t' <+: T → d.Carries E T r.1 fun row row' => ∀ name,
        existing.TrueOf E d.columns row name → new.TrueOf E d.columns row name →
        Solution.Agree (existing.termOf E d.columns row name) (new.termOf E d.columns row name) →
        r.2.TrueOf E d.columns row' name ∧ r.2.termOf E d.columns row' name =
          (existing.termOf E d.columns row name).or (new.termOf E d.columns row name) := by
  unfold merge
  split
  · rename_i hnull
    refine DraftBuilder.builds_pure ⟨⟨rfl, rfl, rfl⟩, fun T _ =>
      carries_self fun row _ name he _ _ => ⟨he, ?_⟩⟩
    obtain ⟨x, hx⟩ := Option.ne_none_iff_exists'.mp (he.termOf_ne_none (by simpa using hnull))
    rw [hx, Option.some_or]
  · split
    · rename_i hnull
      refine DraftBuilder.builds_pure ⟨⟨rfl, rfl, rfl⟩, fun T _ =>
        carries_self fun row _ name _ hn hagree => ⟨hn, ?_⟩⟩
      exact (Solution.or_eq_right_of_agree hagree (hn.termOf_ne_none (by simpa using hnull))).symm
    · rename_i hnullable _
      refine DraftBuilder.builds_get_bind <|
        DraftBuilder.builds_lift_bind (existing.toScalar_eval E d.columns) fun x hx =>
        DraftBuilder.builds_lift_bind (new.toScalar_eval E d.columns) fun y hy =>
        DraftBuilder.builds_fresh_bind <| DraftBuilder.builds_pure ⟨⟨rfl, rfl, rfl⟩, fun T hT => ?_⟩
      have hsound : d.Sound T := h.mono ((List.prefix_append t _).trans hT)
      refine (hsound.carries_assign h.fresh (.coalesce [x, y])).mono
        fun row _ row' _ hrow' hvalue name he hn hagree => ?_
      have hvalued : E.valued name := by
        cases existing with
        | term b => simp [Binding.nullable] at hnullable
        | value v shape nullable escaped => exact he.1
      have hvalue : row' t.length = ((existing.termOf E d.columns row name).or
          (new.termOf E d.columns row name)).map E.shown := by
        rw [hvalue, Scalar.eval, Scalar.evalFirst, Scalar.evalFirst, Scalar.evalFirst,
          hx row name he, hy row name hn, Option.or_none]
        exact Option.map_or.symm
      -- The common term is that of one of the bindings, so its text tells it and its shape is
      -- theirs.
      have hcommon : ∀ z, (existing.termOf E d.columns row name).or
          (new.termOf E d.columns row name) = some z → E.told name (E.shown z) = z ∧
            (existing.shape.merge new.shape).Says E.domain row' (some z.shape) := by
        intro z hz
        obtain hz | ⟨-, hz⟩ := Option.or_eq_some_iff.mp hz
        · exact ⟨he.told_shown hvalued hz,
            ((he.shape hz).congr fun v hv => hrow' v (hexisting.indices hv)).merge_left⟩
        · exact ⟨hn.told_shown hvalued hz,
            ((hn.shape hz).congr fun v hv => hrow' v (hnew.indices hv)).merge_right⟩
      refine ⟨⟨hvalued, fun hnull => by simp at hnull, fun text htext => ?_⟩, ?_⟩
      · rw [hvalue] at htext
        obtain ⟨z, hz, rfl⟩ := Option.map_eq_some_iff.mp htext
        obtain ⟨htold, hshape⟩ := hcommon z hz
        rw [htold]
        exact ⟨rfl, hshape⟩
      · show (row' t.length).map (E.told name) = _
        rw [hvalue, Option.map_map]
        cases hz : (existing.termOf E d.columns row name).or (new.termOf E d.columns row name) with
        | none => rfl
        | some z => exact congrArg some (hcommon z hz).1

/-- A draft turns into another whose answers are made from its own, for each of them as its solution
and its values say. -/
structure Yields (E : Setting) (t : VariableTable) (d : Draft) (vs : List Variable)
    (step : Solution → Row String → Multiset Solution) (d' : Draft)
    (t' : VariableTable) : Prop where
  tracks : d'.Tracks E t'
  grows : d.Grows t d'
  columns : d'.columns = d.columns
  tables : d'.tables = d.tables
  answers : ∀ T, t' <+: T → d'.answers E T vs =
    (d.answers E T vs).bind fun x => (step x.1 x.2).map (·, x.2)

theorem yields_self (h : d.Tracks E t) : Yields E t d vs (fun a _ => {a}) d t where
  tracks := h
  grows := .refl t d
  columns := rfl
  tables := rfl
  answers := fun T _ => by
    simp only [Multiset.map_singleton]
    exact (Multiset.bind_singleton _ id).trans (Multiset.map_id _) |>.symm

theorem Yields.trans {t' t'' : VariableTable}
    {step step' : Solution → Row String → Multiset Solution}
    (h : d.Yields E t vs step d' t') (ht : t <+: t') (ht' : t' <+: t'')
    (h' : d'.Yields E t' vs step' d'' t'') :
    d.Yields E t vs (fun a row => (step a row).bind (step' · row)) d'' t'' where
  tracks := h'.tracks
  grows := h.grows.trans ht h'.grows
  columns := h'.columns.trans h.columns
  tables := h'.tables.trans h.tables
  answers := fun T hT => by
    rw [h'.answers T hT, h.answers T (ht'.trans hT), Multiset.bind_assoc]
    refine Multiset.bind_congr fun x _ => ?_
    rw [Multiset.bind_map, Multiset.map_bind]

theorem Yields.congr {t' : VariableTable} {step step' : Solution → Row String → Multiset Solution}
    (h : d.Yields E t vs step d' t') (ht : t <+: t')
    (hstep : ∀ T, t <+: T → ∀ x ∈ d.answers E T vs, step x.1 x.2 = step' x.1 x.2) :
    d.Yields E t vs step' d' t' :=
  { h with
    answers := fun T hT => (h.answers T hT).trans <| Multiset.bind_congr fun x hx => by
      rw [hstep T (ht.trans hT) x hx] }

theorem Yields.solutions {t' : VariableTable} {step : Solution → Row String → Multiset Solution}
    (h : d.Yields E t vs step d' t') {T : VariableTable} (hT : t' <+: T) :
    d'.solutions E T = (d.answers E T vs).bind fun x => step x.1 x.2 := by
  rw [← map_fst_answers vs, h.answers T hT, Multiset.map_bind]
  refine Multiset.bind_congr fun x _ => ?_
  rw [Multiset.map_map]
  exact Multiset.map_id _

/-- What a binding may read while it waits for its turn. -/
structure Waits (E : Setting) (t : VariableTable) (d : Draft) (vs : List Variable) (name : String)
    (b : Binding) : Prop where
  inScope : b.InScope d.columns d.vars
  readsFrom : b.ReadsFrom d.columns vs
  true : ∀ T, t <+: T → ∀ x ∈ d.answers E T vs, b.TrueOf E d.columns x.2 name

theorem Waits.of_yields {t' : VariableTable} {step : Solution → Row String → Multiset Solution}
    (hb : d.Waits E t vs name b) (ht : t <+: t') (h : d.Yields E t vs step d' t') :
    d'.Waits E t' vs name b where
  inScope := h.grows.inScope hb.inScope
  readsFrom := h.columns ▸ hb.readsFrom
  true := fun T hT x hx => by
    rw [h.answers T hT] at hx
    obtain ⟨y, hy, hx⟩ := Multiset.mem_bind.mp hx
    obtain ⟨a, -, rfl⟩ := Multiset.mem_map.mp hx
    exact h.columns ▸ hb.true T (ht.trans hT) y hy

open Classical in
/-- A query variable is bound on the rows where its new term agrees with the one that it has, or on
rows that carry these on. -/
theorem Tracks.yields_setBinding {t' : VariableTable} {agreeing : Draft} {merged : Binding}
    (h : d.Tracks E t) (ht : t <+: t') (hvs : vs ⊆ d.vars) (hreads : b.ReadsFrom d.columns vs)
    (hvars : agreeing.vars = d.vars) (hrows : ∀ T, t <+: T → agreeing.rowsIn E T =
      (d.rowsIn E T).filter fun row =>
        Solution.Agree (d.solution E row name) (b.termOf E d.columns row name))
    (hsound : (d'.setBinding name merged).Sound t') (hgrows : d.Grows t d')
    (hsame : d'.bindings = d.bindings ∧ d'.columns = d.columns ∧ d'.tables = d.tables)
    (hcarries : ∀ T, t' <+: T → agreeing.Carries E T d' fun row row' =>
      merged.TrueOf E d.columns row' name ∧ merged.termOf E d.columns row' name =
        (d.solution E row name).or (b.termOf E d.columns row name)) :
    d.Yields E t vs (fun a row => a.combine (.single name (b.termOf E d.columns row name)))
      (d'.setBinding name merged) t' := by
  obtain ⟨hbindings, hcolumns, htables⟩ := hsame
  refine ⟨⟨hsound, ?_, ?_, fun T hT row' hrow' e he => ?_⟩,
    hgrows.trans ht (grows_setBinding t' d' name merged), hcolumns, htables, fun T hT => ?_⟩
  · exact Bindings.Sorted.insert (hbindings ▸ h.sorted) name merged
  · show ∀ e ∈ d'.columns, e.1.1 ∈ d'.tables.map (·.row)
    rw [hcolumns, htables]
    exact h.numbered
  · obtain ⟨row, hrow, hvalues, hmerged, -⟩ := (hcarries T hT).exists_of_mem hrow'
    rw [hrows T (ht.trans hT)] at hrow
    show e.2.TrueOf E d'.columns row' e.1
    rw [hcolumns]
    obtain rfl | he := Bindings.mem_insert he
    · exact hmerged
    · exact h.sound.faithful_congr (hvars ▸ hvalues)
        (h.faithful T (ht.trans hT) row (Multiset.mem_of_mem_filter hrow)) e (hbindings ▸ he)
  · have hanswers : (d'.setBinding name merged).answers E T vs = (agreeing.rowsIn E T).map
        fun row => ((d.solution E row).merge (.single name (b.termOf E d.columns row name)),
          row.restrict vs) := by
      refine (hcarries T hT).map_rows fun row _ row' hvalues hr => Prod.ext (funext fun x => ?_) ?_
      · show ((Bindings.insert name merged d'.bindings).lookup x).bind
            (·.termOf E d'.columns row' x) =
          (d.solution E row x).or (if x = name then b.termOf E d.columns row name else none)
        rw [Bindings.lookup_insert, hbindings, hcolumns]
        split
        · rename_i hx
          subst hx
          exact hr.2
        · rw [Option.or_none]
          exact congrFun (h.sound.solution_congr (hvars ▸ hvalues)) x
      · exact Row.restrict_congr fun v hv => hvalues v (hvars ▸ hvs hv)
    rw [hanswers, hrows T (ht.trans hT), ← Multiset.bind_singleton, Multiset.bind_filter, answers,
      Multiset.bind_map]
    refine Multiset.bind_congr fun row _ => ?_
    rw [Solution.combine_single, termOf_restrict hreads]
    split
    · rename_i hagree
      rw [Solution.keep_of hagree, Multiset.map_singleton]
    · rename_i hagree
      rw [Solution.keep_of_not hagree, Multiset.map_zero]

open DraftBuilder

open Classical in
/-- Binding a variable combines each answer with the solution that binds it. -/
theorem bind_yields (h : d.Tracks E t) (hvs : vs ⊆ d.vars) (hb : d.Waits E t vs name b) :
    (d.bind name b).Builds Fault.Excluded t (d.Yields E t vs fun a row =>
      a.combine (.single name (b.termOf E d.columns row name))) := by
  have htrue : ∀ T, t <+: T → ∀ row ∈ d.rowsIn E T, b.TrueOf E d.columns row name :=
    fun T hT row hrow => (trueOf_restrict hb.readsFrom).mp
      (hb.true T hT _ (Multiset.mem_map_of_mem _ hrow))
  unfold bind
  split
  · rename_i hlookup
    have hunbound : ∀ row, d.solution E row name = none := fun row => by
      rw [solution, hlookup, Option.bind_none]
    refine builds_pure (h.yields_setBinding (List.prefix_refl t) hvs hb.readsFrom rfl
      (fun T _ => ?_)
      (h.sound.setBinding name hb.inScope) (.refl t d) ⟨rfl, rfl, rfl⟩ fun T hT => ?_)
    · exact (Multiset.filter_eq_self.mpr fun row _ => .inl (hunbound row)).symm
    · exact carries_self fun row hrow => ⟨htrue T hT row hrow, by rw [hunbound, Option.none_or]⟩
  · rename_i existing hlookup
    have hmem := mem_of_lookup hlookup
    have hexisting := h.sound.bindings _ hmem
    have hsolution : ∀ row, d.solution E row name = existing.termOf E d.columns row name :=
      fun row => by rw [solution, hlookup, Option.bind_some]
    refine builds_lift_bind ((Binding.equality_meets h.sound.within hexisting hb.inScope).and
      (Binding.equality_eval E d.columns existing b)) fun c hc => ?_
    obtain ⟨hreads, hc⟩ := hc
    have hrows : ∀ T, t <+: T → (d.addFilter c).rowsIn E T = (d.rowsIn E T).filter fun row =>
        Solution.Agree (d.solution E row name) (b.termOf E d.columns row name) := by
      intro T hT
      rw [rowsIn, rows_addFilter]
      refine Multiset.filter_congr fun row hrow => ?_
      rw [hsolution]
      exact hc row name (h.faithful T hT row hrow _ hmem) (htrue T hT row hrow)
    have hfilter := h.sound.addFilter hreads
    refine ((merge_builds hfilter hexisting hb.inScope).and
      (merge_carries (E := E) hfilter hexisting hb.inScope)).bind fun r t' ht hr => builds_pure ?_
    obtain ⟨d', merged⟩ := r
    obtain ⟨⟨⟨hsound, hgrows⟩, hmerged⟩, hsame, hcarries⟩ := hr
    have hvars : (d.addFilter c).vars = d.vars := rfl
    refine h.yields_setBinding ht hvs hb.readsFrom hvars hrows (hsound.setBinding name hmerged)
      ((grows_addFilter t d c).trans (List.prefix_refl t) hgrows) hsame fun T hT => ?_
    refine (hcarries T hT).mono fun row hrow row' _ _ hr => ?_
    rw [hrows T (ht.trans hT)] at hrow
    obtain ⟨hrow, hagree⟩ := Multiset.mem_filter.mp hrow
    rw [hsolution] at hagree ⊢
    exact hr name (h.faithful T (ht.trans hT) row hrow _ hmem) (htrue T (ht.trans hT) row hrow)
      hagree

/-- Binding several variables combines each answer with what the bindings come to. -/
theorem bindAll_yields {bs : Bindings} (h : d.Tracks E t) (hvs : vs ⊆ d.vars)
    (hbs : ∀ e ∈ bs, d.Waits E t vs e.1 e.2) :
    (bindAll d bs).Builds Fault.Excluded t (d.Yields E t vs fun a row =>
      (bs.solutions E d.columns row).bind a.combine) := by
  induction bs generalizing d t with
  | nil =>
    refine builds_pure ((yields_self h).congr (List.prefix_refl t) fun T _ x _ => ?_)
    rw [Bindings.solutions, Multiset.singleton_bind, Solution.combine_empty_right]
  | cons e bs ih =>
    obtain ⟨name, b⟩ := e
    rw [List.forall_mem_cons] at hbs
    refine (bind_yields h hvs hbs.1).bind fun d' t' ht hd' => ?_
    refine (ih hd'.tracks (List.Subset.trans hvs hd'.grows.vars)
      fun e he => (hbs.2 e he).of_yields ht hd').mono fun d'' t'' ht' hd'' => ?_
    refine (hd'.trans ht ht' hd'').congr (ht.trans ht') fun T _ x _ => ?_
    rw [Solution.combine_bind_combine, hd'.columns, Bindings.solutions]

end Draft

end VirtualGraph
