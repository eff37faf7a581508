import VirtualGraph.Proofs.Draft.Plan
import VirtualGraph.Proofs.Draft.Triples
import VirtualGraph.Proofs.Draft.Unions

/-!
# Rows of candidates

The rows of a draft that is built for one candidate are choices of the rows that the candidate
reads, whatever the values in them are. A choice passes if the columns that are guarded are not
null, joined columns are the same and not null, constants equate with their terms, and so does the
first term of a variable with every later one. A query variable has the text of its first term.
-/

namespace VirtualGraph

namespace Candidate

variable {c : Candidate} {t T : VariableTable} {choice : RowChoice String}

/-- The values that a choice of rows gives the columns of a candidate. -/
def slots (c : Candidate) (choice : RowChoice String) : Slots := fun s =>
  if (s.row, s.column) ∈ c.columns then choice s.row s.column else none

/-- The term that the term at a position has to be equal to, if there is one: the constant there, or
the first term of the variable. -/
def expected (c : Candidate) (firsts : String → Option BoundTerm) (p : Position) :
    Option BoundTerm :=
  match c.queryTerm p with
  | .var name => firsts name
  | constant => BoundTerm.ofTerm? constant

/-- The first terms of variables, with the term at one more position. -/
def withTerm (c : Candidate) (firsts : String → Option BoundTerm) (p : Position) :
    String → Option BoundTerm := fun name =>
  (firsts name).or (if c.queryTerm p = .var name then some (c.term p) else none)

/-- The terms at positions equate with the terms that are expected there. -/
def Agrees (c : Candidate) (ρ : Slots) : (String → Option BoundTerm) → List Position → Prop
  | _, [] => True
  | firsts, p :: rest =>
    (∀ a ∈ c.expected firsts p, a.Equates ρ (c.term p)) ∧ Agrees c ρ (c.withTerm firsts p) rest

/-- The first term of each variable. -/
def firstTerm (c : Candidate) : String → Option BoundTerm :=
  Position.all.foldl c.withTerm fun _ => none

/-- A choice of rows passes the filters of a candidate. -/
structure Passes (c : Candidate) (choice : RowChoice String) : Prop where
  guards : ∀ column ∈ c.columns, (Draft.columnInfo c.rows column).nullable = true →
    choice column.1 column.2 ≠ none
  joins : ∀ j ∈ c.joins, choice j.1.1 j.1.2 ≠ none ∧ choice j.1.1 j.1.2 = choice j.2.1 j.2.2
  terms : c.Agrees (c.slots choice) (fun _ => none) Position.all

/-- The texts of the query variables for a choice of rows. -/
def texts (c : Candidate) (choice : RowChoice String) : String → Option String := fun name =>
  (c.firstTerm name).bind (·.pattern.text? false (c.slots choice))

open Classical in
/-- What a candidate answers over a database, as texts. -/
noncomputable def answers (db : Database String) (c : Candidate) :
    Multiset (String → Option String) :=
  ((RowChoice.all db c.rows).filter c.Passes).map c.texts

variable {ρ : Slots} {firsts : String → Option BoundTerm} {p : Position} {name : String}
variable {positions : List Position}

theorem expected_var (hp : c.queryTerm p = .var name) : c.expected firsts p = firsts name := by
  simp only [expected, hp]

theorem expected_constant (hp : ∀ name, c.queryTerm p ≠ .var name) :
    c.expected firsts p = BoundTerm.ofTerm? (c.queryTerm p) := by
  unfold expected
  split
  · rename_i name hname
    exact absurd hname (hp name)
  · rfl

theorem withTerm_constant (hp : ∀ name, c.queryTerm p ≠ .var name) :
    c.withTerm firsts p = firsts := by
  funext name
  rw [withTerm, if_neg (hp name), Option.or_none]

theorem withTerm_of_ne {x : String} (hp : c.queryTerm p = .var name) (hx : x ≠ name) :
    c.withTerm firsts p x = firsts x := by
  have hne : c.queryTerm p ≠ .var x := fun heq => hx (Term.var.inj (heq.symm.trans hp))
  rw [withTerm, if_neg hne, Option.or_none]

theorem withTerm_of_some {b : BoundTerm} (hname : firsts name = some b) :
    c.withTerm firsts p name = some b := by
  rw [withTerm, hname, Option.some_or]

theorem withTerm_of_none (hp : c.queryTerm p = .var name) (hname : firsts name = none) :
    c.withTerm firsts p name = some (c.term p) := by
  rw [withTerm, hname, if_pos hp, Option.none_or]

/-- Terms that equate may be equal. -/
theorem Agrees.canMatch {bound : List (String × BoundTerm)} (h : c.Agrees ρ firsts positions)
    (hbound : ∀ name, bound.lookup name = firsts name) :
    (positions.all fun p => BoundTerm.canMatch (c.queryTerm p) (c.term p)) = true ∧
      BoundTerm.agreeFrom bound
        (positions.filterMap fun p => (c.queryTerm p).varName?.map (·, c.term p)) = true := by
  induction positions generalizing firsts bound with
  | nil => exact ⟨rfl, rfl⟩
  | cons p positions ih =>
    obtain ⟨hp, hrest⟩ := h
    rw [List.all_cons, Bool.and_eq_true, List.filterMap_cons]
    by_cases hvar : ∃ name, c.queryTerm p = .var name
    · obtain ⟨name, hvar⟩ := hvar
      rw [expected_var hvar] at hp
      rw [hvar]
      show (true = true ∧ _) ∧ BoundTerm.agreeFrom bound ((name, c.term p) :: _) = true
      rw [BoundTerm.agreeFrom, hbound name]
      cases hname : firsts name with
      | some first =>
        have hsame : ∀ x, bound.lookup x = c.withTerm firsts p x := by
          intro x
          by_cases hx : x = name
          · rw [hx, withTerm_of_some hname, hbound, hname]
          · rw [withTerm_of_ne hvar hx, hbound]
        obtain ⟨hmatch, hagree⟩ := ih hrest hsame
        refine ⟨⟨rfl, hmatch⟩, Bool.and_eq_true_iff.mpr ⟨(hp first hname).canEqual, hagree⟩⟩
      | none =>
        have hsame : ∀ x, List.lookup x ((name, c.term p) :: bound) = c.withTerm firsts p x := by
          intro x
          rw [List.lookup_cons]
          by_cases hx : x = name
          · rw [hx, beq_self_eq_true, withTerm_of_none hvar hname]
          · rw [beq_false_of_ne hx, withTerm_of_ne hvar hx, hbound]
        obtain ⟨hmatch, hagree⟩ := ih hrest hsame
        exact ⟨⟨rfl, hmatch⟩, hagree⟩
    · have hvar : ∀ name, c.queryTerm p ≠ .var name := fun name hname => hvar ⟨name, hname⟩
      rw [expected_constant hvar] at hp
      rw [withTerm_constant hvar] at hrest
      obtain ⟨hmatch, hagree⟩ := ih hrest hbound
      have hname : (c.queryTerm p).varName? = none := by
        cases hq : c.queryTerm p with
        | var name => exact absurd hq (hvar name)
        | iri i => rfl
        | literal l => rfl
      rw [hname]
      refine ⟨⟨?_, hmatch⟩, hagree⟩
      unfold BoundTerm.canMatch
      split
      · rename_i a ha
        exact (hp a ha).canEqual
      · rfl

theorem Passes.canMatch (h : c.Passes choice) : c.canMatch = true := by
  have hnone : ∀ name, List.lookup name ([] : List (String × BoundTerm)) = none := fun _ => rfl
  obtain ⟨hmatch, hagree⟩ := h.terms.canMatch hnone
  exact Bool.and_eq_true_iff.mpr ⟨hmatch, hagree⟩

theorem answers_eq_zero {db : Database String} (h : c.canMatch = false) : c.answers db = 0 := by
  classical
  refine (congrArg (Multiset.map _) ?_).trans (Multiset.map_zero _)
  refine Multiset.filter_eq_nil.mpr fun choice _ hpasses => ?_
  rw [hpasses.canMatch] at h
  cases h

/-- The variables of the columns have the values of the choice. -/
theorem slots_newColumns (c : Candidate) (t : VariableTable) (choice : RowChoice String) :
    (c.newColumns t).slots (Row.ofChoice (c.newColumns t) choice) = c.slots choice := by
  funext s
  rw [ColumnIndex.slots, slots]
  split
  · rename_i hcolumn
    obtain ⟨v, -, hlookup, hvalue⟩ := lookup_newColumns t hcolumn
    rw [hlookup, Option.bind_some, hvalue]
  · rename_i hcolumn
    have hnone : (c.newColumns t).lookup (s.row, s.column) = none := by
      rw [List.lookup_eq_none_iff]
      intro e he
      refine bne_iff_ne.mpr fun heq => hcolumn ?_
      rw [heq]
      exact mem_map_newColumns.mp (List.mem_map_of_mem he)
    rw [hnone, Option.bind_none]

end Candidate

namespace Draft

open DraftBuilder

variable {E : Setting} {t t' T : VariableTable} {d : Draft} {c : Candidate} {new : ColumnIndex}
variable {P Q : RowChoice String → Prop} {firsts : String → Option BoundTerm}

open Classical in
/-- The rows of a draft are the choices of the rows of a candidate with a property, and the query
variables are bound to given terms. -/
structure Chooses (E : Setting) (t : VariableTable) (c : Candidate) (new : ColumnIndex)
    (P : RowChoice String → Prop) (firsts : String → Option BoundTerm) (d : Draft) : Prop where
  columns : d.columns = new
  bindings : ∀ name, d.bindings.lookup name = (firsts name).map .term
  rows : ∀ T, t <+: T → d.rowsIn E T =
    ((RowChoice.all E.db c.rows).filter P).map (Row.ofChoice new)

theorem Chooses.mono (h : d.Chooses E t c new P firsts) (ht : t <+: t')
    (hPQ : ∀ choice, P choice ↔ Q choice) : d.Chooses E t' c new Q firsts :=
  { h with rows := fun T hT => by rw [h.rows T (ht.trans hT), funext fun x => propext (hPQ x)] }

/-- A filter keeps the choices that meet the condition that it stands for. -/
theorem Chooses.addFilter (h : d.Chooses E t c new P firsts) {condition : Condition}
    (hQ : ∀ choice, condition.eval E.domain (Row.ofChoice new choice) = .yes ↔ Q choice) :
    (d.addFilter condition).Chooses E t c new (fun choice => P choice ∧ Q choice) firsts :=
  { h with
    rows := fun T hT => by
      classical
      have hrows : d.rows E.domain E.db T = _ := h.rows T hT
      rw [rowsIn, rows_addFilter, hrows, Multiset.filter_map, Multiset.filter_filter]
      congr! 2 with choice
      exact and_comm.trans (and_congr_right' (hQ choice)) }

theorem Chooses.setBinding (h : d.Chooses E t c new P firsts) {firsts' : String → Option BoundTerm}
    {name : String} {b : BoundTerm} (hname : firsts' name = some b)
    (hother : ∀ x, x ≠ name → firsts' x = firsts x) :
    (d.setBinding name (.term b)).Chooses E t c new P firsts' :=
  { h with
    bindings := fun x => by
      rw [Draft.setBinding, Bindings.lookup_insert]
      split
      · rename_i hx
        rw [hx, hname, Option.map_some]
      · rename_i hx
        rw [h.bindings x, hother x hx] }

/-- The rows of a candidate alone are the choices that pass its guards. -/
theorem chooses_reading (ht : t ++ c.columns.map (columnInfo c.rows) <+: t') :
    (empty.reading c.rows (c.newColumns t)).Chooses E t' c (c.newColumns t)
      (fun choice => ∀ column ∈ c.columns, (columnInfo c.rows column).nullable = true →
        choice column.1 column.2 ≠ none) fun _ => none where
  columns := rfl
  bindings := fun _ => rfl
  rows := fun T hT => by
    classical
    have hreads : empty.Reads T c.rows (c.newColumns t) :=
      Candidate.reads_newColumns sound_empty (ht.trans hT)
    have hguarded : ∀ choice, Guarded c.rows (c.newColumns t) choice ↔
        ∀ column ∈ c.columns, (columnInfo c.rows column).nullable = true →
          choice column.1 column.2 ≠ none := by
      intro choice
      unfold Guarded
      simp only [← Candidate.mem_map_newColumns (t := t), List.forall_mem_map]
    have hempty : empty.rowsIn E T = {Row.null} := rfl
    rw [sound_empty.rows_reading hreads, hempty, Multiset.singleton_bind,
      funext fun choice => propext (hguarded choice)]
    refine Multiset.map_congr rfl fun choice _ => funext fun v => ?_
    by_cases hv : v ∈ (c.newColumns t).map (·.2)
    · exact Row.take_of_mem hv
    · exact (Row.take_of_not_mem hv).trans (Row.ofChoice_of_not_mem hv).symm

variable {positions : List Position}

/-- Join conditions keep the choices whose columns have the same values. -/
theorem addJoins_chooses {joins : List ((Nat × String) × (Nat × String))}
    (h : d.Chooses E t c (c.newColumns t') P firsts)
    (hjoins : ∀ j ∈ joins, j.1 ∈ c.columns ∧ j.2 ∈ c.columns) :
    (addJoins d joins).Meets Fault.Any fun d' => d'.Chooses E t c (c.newColumns t')
      (fun choice => P choice ∧ ∀ j ∈ joins, choice j.1.1 j.1.2 ≠ none ∧
        choice j.1.1 j.1.2 = choice j.2.1 j.2.2) firsts := by
  induction joins generalizing d P with
  | nil => exact h.mono (List.prefix_refl t) fun choice => by simp
  | cons j joins ih =>
    obtain ⟨child, parent⟩ := j
    rw [List.forall_mem_cons] at hjoins
    have hvalue : ∀ {column : Nat × String}, column ∈ c.columns →
        (d.columns.get column.1 column.2).Meets Fault.Any fun v => ∀ choice,
          Row.ofChoice (c.newColumns t') choice v = choice column.1 column.2 := by
      intro column hcolumn
      obtain ⟨v, -, hlookup, hvalue⟩ := Candidate.lookup_newColumns t' hcolumn
      rw [ColumnIndex.get, h.columns, hlookup]
      exact hvalue
    refine (hvalue hjoins.1.1).bind fun v hv => (hvalue hjoins.1.2).bind fun w hw => ?_
    have hsame : ∀ choice, (Condition.sameVariable v w).eval E.domain
        (Row.ofChoice (c.newColumns t') choice) = .yes ↔
          choice child.1 child.2 ≠ none ∧ choice child.1 child.2 = choice parent.1 parent.2 := by
      intro choice
      rw [Condition.eval_sameVariable E.textual, hv choice, hw choice]
    refine (ih (h.addFilter hsame) hjoins.2).mono fun d' hd' =>
      hd'.mono (List.prefix_refl t) fun choice => ?_
    rw [and_assoc, List.forall_mem_cons]

end Draft

namespace Binding

variable {D : ValueDomain String} {columns : ColumnIndex}

/-- The condition for two bindings to terms is that for the terms. -/
theorem equality_terms (hD : D.Textual) (a b : BoundTerm) :
    ((term a).equality columns (.term b)).Meets Fault.Any fun c => ∀ row,
      c.eval D row = .yes ↔ a.Equates (columns.slots row) b := by
  have hterm : (termEquality columns (.term a) (.term b)).Meets Fault.Any fun c => ∀ row,
      c.eval D row = .yes ↔ a.Equates (columns.slots row) b := by
    unfold termEquality
    split
    · rename_i hdisjoint
      obtain ⟨_, _, ha, hb, hne⟩ := disjoint_iff.mp hdisjoint
      cases ha
      cases hb
      have hshape : a.shape ≠ b.shape := fun heq => by simp [heq] at hne
      intro row
      simp [Condition.eval, BoundTerm.Equates, hshape]
    · exact BoundTerm.equality_holds hD a b
  exact hterm.bind fun c hc => hc

end Binding

namespace Draft

open DraftBuilder

variable {E : Setting} {t t₀ T : VariableTable} {d : Draft} {c : Candidate}
variable {P : RowChoice String → Prop} {firsts : String → Option BoundTerm}
variable {positions : List Position}

theorem Chooses.slots_eq (h : d.Chooses E t c (c.newColumns t₀) P firsts)
    (choice : RowChoice String) :
    d.columns.slots (Row.ofChoice (c.newColumns t₀) choice) = c.slots choice := by
  rw [h.columns, Candidate.slots_newColumns]

/-- Binding a variable keeps the choices where the term equates with its first one. -/
theorem bind_chooses (h : d.Chooses E t c (c.newColumns t₀) P firsts) {p : Position} {name : String}
    (hp : c.queryTerm p = .var name) :
    (d.bind name (.term (c.term p))).Builds Fault.Any t fun d' t' =>
      d'.Chooses E t' c (c.newColumns t₀)
        (fun choice => P choice ∧
          ∀ a ∈ c.expected firsts p, a.Equates (c.slots choice) (c.term p))
        (c.withTerm firsts p) := by
  have hexpected : c.expected firsts p = firsts name := Candidate.expected_var hp
  have hother : ∀ x, x ≠ name → c.withTerm firsts p x = firsts x := fun x hx =>
    Candidate.withTerm_of_ne hp hx
  unfold bind
  split
  · rename_i hnone
    rw [h.bindings name, Option.map_eq_none_iff] at hnone
    refine builds_pure ((h.mono (List.prefix_refl t) fun choice => ?_).setBinding
      (Candidate.withTerm_of_none hp hnone) hother)
    simp [hexpected, hnone]
  · rename_i existing hexisting
    rw [h.bindings name] at hexisting
    obtain ⟨a, ha, rfl⟩ := Option.map_eq_some_iff.mp hexisting
    refine builds_lift_bind (Binding.equality_terms E.textual a (c.term p)) fun condition hc => ?_
    have hequates : ∀ choice, condition.eval E.domain (Row.ofChoice (c.newColumns t₀) choice) =
        .yes ↔ ∀ a ∈ c.expected firsts p, a.Equates (c.slots choice) (c.term p) := by
      intro choice
      rw [hc, h.slots_eq]
      simp [hexpected, ha]
    exact builds_pure ((h.addFilter hequates).setBinding (Candidate.withTerm_of_some ha) hother)

/-- Binding the terms of a candidate keeps the choices where they agree. -/
theorem addTerms_chooses (h : d.Chooses E t c (c.newColumns t₀) P firsts) :
    (addTerms c d positions).Builds Fault.Any t fun d' t' =>
      d'.Chooses E t' c (c.newColumns t₀)
        (fun choice => P choice ∧ c.Agrees (c.slots choice) firsts positions)
        (positions.foldl c.withTerm firsts) := by
  induction positions generalizing d t P firsts with
  | nil => exact builds_pure (h.mono (List.prefix_refl t) fun choice => by simp [Candidate.Agrees])
  | cons p positions ih =>
    have hrest : ∀ {d' t'}, d'.Chooses E t' c (c.newColumns t₀) (fun choice => P choice ∧
        ∀ a ∈ c.expected firsts p, a.Equates (c.slots choice) (c.term p)) (c.withTerm firsts p) →
        (addTerms c d' positions).Builds Fault.Any t' fun d'' t'' =>
          d''.Chooses E t'' c (c.newColumns t₀)
            (fun choice => P choice ∧ c.Agrees (c.slots choice) firsts (p :: positions))
            ((p :: positions).foldl c.withTerm firsts) := fun hd' =>
      (ih hd').mono fun d'' t'' _ hd'' => hd''.mono (List.prefix_refl _) fun choice => and_assoc
    rw [addTerms]
    split
    · rename_i name hp
      exact (bind_chooses h hp).bind fun d' t' _ hd' => hrest hd'
    · rename_i hvar
      have hsame : c.withTerm firsts p = firsts := Candidate.withTerm_constant hvar
      have hexpected : c.expected firsts p = BoundTerm.ofTerm? (c.queryTerm p) :=
        Candidate.expected_constant hvar
      split
      · rename_i a ha
        refine builds_lift_bind (BoundTerm.equality_holds E.textual a (c.term p))
          fun condition hc => hrest ?_
        rw [hsame]
        refine h.addFilter fun choice => ?_
        rw [hc, h.slots_eq, hexpected, ha]
        simp
      · rename_i hnone
        refine hrest ?_
        rw [hsame, hexpected, hnone]
        exact h.mono (List.prefix_refl t) fun choice => by simp

/-- The rows of the draft of a candidate are the choices that pass. -/
theorem addCandidate_chooses (c : Candidate) (t : VariableTable) :
    (empty.addCandidate c).Builds Fault.Any t fun d t' =>
      d.Chooses E t' c (c.newColumns t) c.Passes c.firstTerm := by
  have hfresh : ∀ n ∈ c.rows.map (·.1), n ∉ empty.tables.map (·.row) := fun _ _ hmem =>
    absurd hmem List.not_mem_nil
  refine (addColumns_tracks (E := E) tracks_empty hfresh).of_excluded.bind fun d t' _ hd => ?_
  obtain ⟨-, rfl, rfl⟩ := hd
  refine builds_lift_bind (addJoins_chooses (chooses_reading (E := E) (List.prefix_refl _))
    fun j hj => ⟨Candidate.mem_columns.mpr (.inr ⟨j, hj, .inl rfl⟩),
      Candidate.mem_columns.mpr (.inr ⟨j, hj, .inr rfl⟩)⟩) fun d' hd' => ?_
  refine (addTerms_chooses hd').mono fun d'' t'' _ hd'' =>
    hd''.mono (List.prefix_refl _) fun choice => ⟨fun h => ⟨h.1.1, h.1.2, h.2⟩, fun h => ?_⟩
  exact ⟨⟨h.guards, h.joins⟩, h.terms⟩

/-- A query variable that is bound to a term has the text of its pattern. -/
theorem Sound.text_term (h : d.Sound t) {name : String} {b : BoundTerm}
    (hname : d.bindings.lookup name = some (.term b)) (row : Row String) :
    d.text E row name = b.pattern.text? false (d.columns.slots row) := by
  obtain ⟨x, hx, -⟩ :=
    (Binding.toScalar_meets h.within (h.bindings _ (mem_of_lookup hname))).exists_ok
  have heval : ((Binding.term b).toScalar d.columns).Meets Fault.Any _ :=
    Pattern.toScalar_text? E.textual false b.pattern
  rw [hx] at heval
  rw [text, hname, Option.bind_some, Binding.textOn, hx]
  exact heval row

/-- The texts of the query variables on the row of a choice are those of their first terms. -/
theorem Chooses.text_eq (h : d.Chooses E t c (c.newColumns t₀) P firsts) (hsound : d.Sound t)
    (choice : RowChoice String) (name : String) :
    d.text E (Row.ofChoice (c.newColumns t₀) choice) name =
      (firsts name).bind (·.pattern.text? false (c.slots choice)) := by
  have hname := h.bindings name
  cases hfirst : firsts name with
  | none =>
    rw [hfirst] at hname
    rw [text, hname]
    rfl
  | some b =>
    rw [hfirst] at hname
    rw [hsound.text_term hname, h.slots_eq, Option.bind_some]

/-- The draft of a candidate binds the variables to their first terms, and its rows have the texts
that the candidate answers with. -/
theorem addCandidate_answers (c : Candidate) (t : VariableTable) :
    (empty.addCandidate c).Builds Fault.Any t fun d t' =>
      (∀ name, d.bindings.lookup name = (c.firstTerm name).map .term) ∧
        ∀ T, t' <+: T → (d.rowsIn E T).map (d.text E) = c.answers E.db := by
  refine ((addCandidate_chooses (E := E) c t).and
    (addCandidate_evolves sound_empty c).of_excluded).mono
    fun d t' _ hd => ⟨hd.1.bindings, fun T hT => ?_⟩
  rw [hd.1.rows T hT, Multiset.map_map]
  exact Multiset.map_congr rfl fun choice _ => funext fun name => hd.1.text_eq hd.2.1 choice name

end Draft

namespace BoundTree

open DraftBuilder Draft

variable {E : Setting}

/-- The drafts of candidates, one for each. -/
theorem draftEach_answers (cs : List Candidate) (t : VariableTable) :
    (draftEach (cs.map triple)).Builds Fault.Any t fun ds t' =>
      (∀ name, ds.map (·.bindings.lookup name) =
        cs.map fun c => (c.firstTerm name).map Binding.term) ∧
      ∀ T, t' <+: T →
        ds.map (fun d => (d.rowsIn E T).map (d.text E)) = cs.map (·.answers E.db) := by
  induction cs generalizing t with
  | nil => exact builds_pure ⟨fun _ => rfl, fun _ _ => rfl⟩
  | cons c cs ih =>
    show Builds Fault.Any t _ (draftEach (triple c :: cs.map triple))
    rw [draftEach, addTo]
    refine (addCandidate_answers (E := E) c t).bind fun d t' _ hd =>
      (ih t').bind fun ds t'' ht hds => builds_pure ⟨fun name => ?_, fun T hT => ?_⟩
    · exact congrArg₂ List.cons (hd.1 name) (hds.1 name)
    · exact congrArg₂ List.cons (hd.2 T (ht.trans hT)) (hds.2 T hT)

/-- The draft of a union of candidates has the texts of all of them. -/
theorem addTo_union_answers (cs : List Candidate) (t : VariableTable) :
    ((union (cs.map triple)).addTo .empty).Builds Fault.Any t fun d t' =>
      (∀ name c, c ∈ cs → c.firstTerm name ≠ none → ∃ v, d.bindings.lookup name =
        some (UnionDraft.binding t.length (cs.map fun c => (c.firstTerm name).map .term) v)) ∧
      ∀ T, t' <+: T → (d.rowsIn E T).map (d.text E) = (cs.map (·.answers E.db)).sum := by
  rw [addTo]
  refine builds_fresh_bind ?_
  have hsound : (draftEach (cs.map triple)).Builds Fault.Any
      (t ++ [⟨.derived, .integer, false⟩]) _ := (draftEach_builds _ _).allow fun _ _ => trivial
  refine ((draftEach_answers (E := E) cs _).and hsound).bind fun ds t' ht hds => ?_
  obtain ⟨⟨hbound, htexts⟩, hsounds⟩ := hds
  have htaken : t.length < t'.length := by
    have := ht.length_le
    rw [List.length_append, List.length_singleton] at this
    omega
  have hlater : ∀ d ∈ ds, d.Sound t' ∧ ∀ v ∈ d.vars, t.length < v := by
    intro d hd
    refine ⟨(hsounds d hd).1, fun v hv => ?_⟩
    have := (hsounds d hd).2 v hv
    rw [List.length_append, List.length_singleton] at this
    omega
  refine (addUnion_texts (E := E) ((List.prefix_append t _).trans ht) htaken hlater).mono
    fun d t'' ht' hd => ⟨fun name c hc hname => ?_, fun T hT => ?_⟩
  · have hmem : (c.firstTerm name).map Binding.term ∈ ds.map (·.bindings.lookup name) :=
      hbound name ▸ List.mem_map.mpr ⟨c, hc, rfl⟩
    obtain ⟨b, hb, heq⟩ := List.mem_map.mp hmem
    obtain ⟨v, hv⟩ := hd.1 name b hb fun hnone =>
      hname (Option.map_eq_none_iff.mp (heq.symm.trans hnone))
    exact ⟨v, hbound name ▸ hv⟩
  · rw [hd.2 T hT, htexts T (ht'.trans hT)]

/-- The draft of candidates that are alternatives has the texts of all of them. -/
theorem addTo_ofBranches_answers (cs : List Candidate) (t : VariableTable) :
    ((ofBranches (cs.map triple)).addTo .empty).Builds Fault.Any t fun d t' =>
      ∀ T, t' <+: T → (d.rowsIn E T).map (d.text E) = (cs.map (·.answers E.db)).sum := by
  match cs with
  | [] =>
    refine builds_pure fun T _ => ?_
    rw [rowsIn, rows_addFilter]
    refine (congrArg (Multiset.map _) ?_).trans (Multiset.map_zero _)
    exact Multiset.filter_eq_nil.mpr fun _ _ hyes => by cases hyes
  | [c] =>
    refine (addCandidate_answers (E := E) c t).mono fun d t' _ hd T hT => ?_
    rw [hd.2 T hT, List.map_singleton, List.sum_singleton]
  | c :: c' :: cs => exact (addTo_union_answers (c :: c' :: cs) t).mono fun d t' _ hd => hd.2

end BoundTree

end VirtualGraph
