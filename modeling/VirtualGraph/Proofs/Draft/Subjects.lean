import VirtualGraph.Proofs.Bound.Apart
import VirtualGraph.Proofs.Draft.Choices
import VirtualGraph.Proofs.Draft.Patterns

/-!
# Subjects that are compared with an IRI

A triple pattern whose subject is an IRI, and the pattern with a variable in its place under a
filter that compares the variable with the IRI, should have the same answers. In the triple pattern,
each candidate compares the IRI with the term that it makes. The filter does so too if there is one
candidate. If there are several, their union has a column for the variable, and the filter compares
the text in it: the text tells the IRI if the candidates agree on whether texts are escaped, if no
term of another kind has the same text, and if the values in the subjects have no separators.
-/

namespace VirtualGraph

/-- The term of an IRI. -/
def BoundTerm.ofIri (iri : String) : BoundTerm := ⟨.ofText iri true, .iri⟩

/-- Whether a variable is an IRI. -/
def Expression.equalsIri (name iri : String) : Expression :=
  .compare .eq (.var name) (.constant (.iri iri))

namespace Expression

variable {D : ValueDomain String} {s : ExpressionScope} {vs : List Variable} {name iri : String}

section

variable (hD : D.Textual) (hs : s.InScope vs)

include hD hs

/-- A variable that is bound to a term is compared as a term. -/
theorem condition_equalsIri_term {b : BoundTerm} (h : s.binding? name = some (.term b)) :
    ((equalsIri name iri).condition s).Meets Fault.Excluded fun c => c.referenced ⊆ vs ∧
      ∀ row, c.eval D row = .yes ↔ (BoundTerm.ofIri iri).Equates (s.columns.slots row) b := by
  have hequality : (equalsIri name iri).condition s = b.equality s.columns (.ofIri iri) := by
    simp only [equalsIri, condition, comparison, term?, h, BoundTerm.ofTerm?]
    exact if_pos (.inr rfl)
  have hiri : s.columns.Covers (BoundTerm.ofIri iri).pattern :=
    ColumnIndex.covers_ofText iri true
  rw [hequality]
  refine ((BoundTerm.equality_meets hs.columns (hs.binding h) hiri).and
    (BoundTerm.equality_holds hD b (.ofIri iri))).mono fun c hc => ⟨hc.1, fun row => ?_⟩
  rw [hc.2 row, BoundTerm.equates_comm]

/-- A variable that is bound to a value is compared as a text, unless it is known to be no IRI. -/
theorem condition_equalsIri_value {v : Variable} {shape : Shape} {nullable escaped : Bool}
    (h : s.binding? name = some (.value v shape nullable escaped)) :
    ((equalsIri name iri).condition s).Meets Fault.Excluded fun c => c.referenced ⊆ vs ∧
      ∀ row, c.eval D row = .yes ↔ shape.disjoint (.known .iri) = false ∧
        row v = some (Pattern.decodeText escaped iri) := by
  have hvariable : operand s (var name) (constant (.iri iri)) =
      .ok ⟨.column v, s.table.type v, shape, nullable, escaped⟩ := by
    simp only [operand, value, ExpressionScope.variableValue, h]
    rfl
  have hescaped : isEscapedVariable s (var name) = escaped := by
    simp only [isEscapedVariable, h]
    rfl
  have hconstant : operand s (constant (.iri iri)) (var name) =
      .ok ⟨.constant (Pattern.decodeText escaped iri) .string, .string, .known .iri, false,
        false⟩ := by
    rw [operand, hescaped]
    cases escaped <;> rfl
  have hcomparison : (equalsIri name iri).condition s =
      compareValues s .eq (var name) (constant (.iri iri)) := by
    simp only [equalsIri, condition, comparison, term?, h]
  have hv : v ∈ vs := (hs.binding h).1
  rw [hcomparison, compareValues, hvariable, hconstant]
  show Result.Meets _ _ (if Comparator.eq = .eq ∧ shape.disjoint (.known .iri) = true then _ else _)
  cases shape.disjoint (.known .iri) with
  | true => exact ⟨List.nil_subset vs, fun row => by simp [Condition.eval]⟩
  | false =>
    refine ⟨List.cons_subset.mpr ⟨hv, List.nil_subset vs⟩, fun row => ?_⟩
    exact (Condition.eval_equalsConstant hD).trans (and_iff_right rfl).symm

end

end Expression

namespace BoundTerm

variable {iri : String} {ρ : Slots} {b : BoundTerm}

/-- The text that a term has if it is a given IRI: the texts of escaped terms are not encoded. -/
def keyOf (iri : String) (b : BoundTerm) : String :=
  Pattern.decodeText (Binding.term b).escaped iri

/-- The text of a term tells whether it is a given IRI. -/
inductive Tells (iri : String) (ρ : Slots) (b : BoundTerm) : Prop
  /-- An IRI whose values are written as their types prescribe. If it is escaped, the given IRI
  spells its text with separators that no value holds. -/
  | iri (shape : b.shape = .iri)
      (lexical : ∀ s, .slot s ∈ b.pattern.symbols → ∀ text, ρ s = some text →
        s.type.isLexical text = true)
      (separated : (Binding.term b).escaped = true → ∃ S : Text.Separators,
        Pattern.Separated S ρ.fill b.pattern.symbols ∧ ∃ text, S.Spells iri.toList text)
  /-- A term of another kind, with another text. -/
  | other (shape : b.shape ≠ .iri) (text : b.pattern.text? false ρ ≠ some (b.keyOf iri))

/-- The values of an IRI are written as their types prescribe and have no separators, symbol by
symbol. -/
def isSeparated (S : Text.Separators) (ρ : Slots) (b : BoundTerm) : Bool :=
  b.pattern.symbols.all fun
    | .char c => S.plain c
    | .slot s => (ρ s).all fun text =>
      s.type.isLexical text && text.toList.all fun c => c != '%' && !S.holds c

theorem tells_of_isSeparated {S : Text.Separators} {text : List Char} (hshape : b.shape = .iri)
    (h : b.isSeparated S ρ = true) (hspells : S.Spells iri.toList text) : b.Tells iri ρ := by
  have hsymbols := List.all_eq_true.mp h
  have hslot : ∀ s, .slot s ∈ b.pattern.symbols → ∀ value, ρ s = some value →
      s.type.isLexical value = true ∧ ∀ c ∈ value.toList, c ≠ '%' ∧ S.holds c = false := by
    intro s hs value hvalue
    simpa [hvalue] using hsymbols _ hs
  refine .iri hshape (fun s hs value hvalue => (hslot s hs value hvalue).1)
    fun _ => ⟨S, ⟨fun c hc => hsymbols _ hc, fun s hs => ?_⟩, text, hspells⟩
  cases hvalue : ρ s with
  | none => simp [Slots.fill, hvalue]
  | some value => simpa [Slots.fill, hvalue] using (hslot s hs value hvalue).2

theorem Tells.equates_iff (h : b.Tells iri ρ) :
    (ofIri iri).Equates ρ b ↔ b.pattern.text? false ρ = some (b.keyOf iri) := by
  cases h with
  | other hshape htext => exact iff_of_false (fun h => hshape h.1.symm) htext
  | iri hshape hlexical hseparated =>
    refine (and_iff_right hshape.symm).trans ?_
    rw [keyOf]
    -- A constant does not count as escaped, although its pattern does.
    have hflag : (Binding.term b).escaped = (b.pattern.escaped && !b.pattern.isConstant) := by
      simp [Binding.escaped, hshape, TermShape.iri]
    cases hescaped : (Binding.term b).escaped with
    | true =>
      obtain ⟨S, hS, hspells⟩ := hseparated hescaped
      have hpattern : b.pattern.escaped = true := by
        rw [hescaped, eq_comm, Bool.and_eq_true] at hflag
        exact hflag.1
      exact Pattern.equates_ofText_iff_of_spells hpattern hlexical hS hspells
    | false =>
      rw [hescaped, eq_comm, Bool.and_eq_false_iff] at hflag
      obtain hpattern | hconstant := hflag
      · exact Pattern.equates_ofText_iff_of_not_escaped hpattern hlexical
      · exact Pattern.equates_ofText_iff_of_isConstant (by simpa using hconstant)

end BoundTerm

namespace Candidate

variable {k : Candidate} {iri name : String} {choice : RowChoice String} {db : Database String}

/-- The candidate for the pattern with another subject. -/
def withSubject (x : Term) (k : Candidate) : Candidate :=
  { k with pattern := { k.pattern with subject := x } }

/-- The subject of the pattern is a variable that occurs nowhere else in it. -/
structure Opens (name : String) (k : Candidate) : Prop where
  subject : k.pattern.subject = .var name
  predicate : k.pattern.predicate ≠ .var name
  object : k.pattern.object ≠ .var name

theorem Opens.firstTerm_eq (h : k.Opens name) : k.firstTerm name = some (k.term .subject) := by
  have hfirst : k.withTerm (fun _ => none) .subject name = some (k.term .subject) :=
    withTerm_of_none h.subject rfl
  exact withTerm_of_some (withTerm_of_some hfirst)

theorem Opens.firstTerm_withSubject (h : k.Opens name) {x : String} (hx : x ≠ name) :
    (k.withSubject (.iri iri)).firstTerm x = k.firstTerm x := by
  have hfirst : k.withTerm (fun _ => none) .subject x = none := withTerm_of_ne h.subject hx
  have hfirst' : (k.withSubject (.iri iri)).withTerm (fun _ => none) .subject x = none := rfl
  show ((Option.or (Option.or _ _) _)) = (Option.or (Option.or _ _) _)
  rw [hfirst, hfirst']
  rfl

/-- Only the variables at the positions matter, and the terms there. -/
theorem agrees_congr {c c' : Candidate} {ρ : Slots} {firsts firsts' : String → Option BoundTerm}
    {positions : List Position} (hterm : ∀ p ∈ positions, c'.term p = c.term p)
    (hquery : ∀ p ∈ positions, c'.queryTerm p = c.queryTerm p)
    (hfirsts : ∀ p ∈ positions, ∀ x, c.queryTerm p = .var x → firsts' x = firsts x) :
    c'.Agrees ρ firsts' positions ↔ c.Agrees ρ firsts positions := by
  induction positions generalizing firsts firsts' with
  | nil => exact Iff.rfl
  | cons p positions ih =>
    rw [List.forall_mem_cons] at hterm hquery hfirsts
    have hexpected : c'.expected firsts' p = c.expected firsts p := by
      unfold expected
      rw [hquery.1]
      split
      · rename_i x hx
        exact hfirsts.1 x hx
      · rfl
    refine and_congr ?_ (ih hterm.2 hquery.2 fun q hq x hx => ?_)
    · rw [hexpected, hterm.1]
    · rw [withTerm, withTerm, hfirsts.2 q hq x hx, hquery.1, hterm.1]

/-- A choice passes, and its subject equates with an IRI. -/
def PassesWith (iri : String) (k : Candidate) (choice : RowChoice String) : Prop :=
  k.Passes choice ∧ (BoundTerm.ofIri iri).Equates (k.slots choice) (k.term .subject)

/-- The choices that pass for an IRI in place of the variable are those whose subject equates with
it. -/
theorem Opens.passes_withSubject (h : k.Opens name) :
    (k.withSubject (.iri iri)).Passes choice ↔ k.PassesWith iri choice := by
  have hsubject : k.queryTerm .subject = .var name := h.subject
  have hrest : (k.withSubject (.iri iri)).Agrees (k.slots choice) (fun _ => none)
      [.predicate, .object] ↔ k.Agrees (k.slots choice) (k.withTerm (fun _ => none) .subject)
        [.predicate, .object] := by
    refine agrees_congr (fun _ _ => rfl) (by simp [queryTerm, withSubject]) fun p hp x hx => ?_
    have hne : x ≠ name := by
      rintro rfl
      obtain rfl | hp := List.mem_cons.mp hp
      · exact h.predicate hx
      · obtain rfl := List.mem_singleton.mp hp
        exact h.object hx
    have hnone : k.withTerm (fun _ => none) .subject x = none := withTerm_of_ne hsubject hne
    exact hnone.symm
  have hvar : ∀ a ∈ k.expected (fun _ => none) .subject,
      a.Equates (k.slots choice) (k.term .subject) := by
    rw [expected_var hsubject]
    exact fun _ ha => absurd ha (Option.not_mem_none _)
  have hconstant : (∀ a ∈ (k.withSubject (.iri iri)).expected (fun _ => none) .subject,
      a.Equates (k.slots choice) (k.term .subject)) ↔
        (BoundTerm.ofIri iri).Equates (k.slots choice) (k.term .subject) := by
    refine ⟨fun ha => ha _ rfl, fun ha a heq => ?_⟩
    cases heq
    exact ha
  constructor
  · intro hp
    exact ⟨⟨hp.guards, hp.joins, hvar, hrest.mp hp.terms.2⟩, hconstant.mp hp.terms.1⟩
  · rintro ⟨hp, hequates⟩
    exact ⟨hp.guards, hp.joins, hconstant.mpr hequates, hrest.mpr hp.terms.2⟩

open Classical in
/-- The answers of a candidate whose subject is a given IRI. -/
noncomputable def answersWith (db : Database String) (iri : String) (k : Candidate) :
    Multiset (String → Option String) :=
  ((RowChoice.all db k.rows).filter (k.PassesWith iri)).map k.texts

theorem answersWith_eq_zero (h : k.canMatch = false) : k.answersWith db iri = 0 := by
  classical
  refine (congrArg (Multiset.map _) ?_).trans (Multiset.map_zero _)
  refine Multiset.filter_eq_nil.mpr fun choice _ hpasses => ?_
  rw [hpasses.1.canMatch] at h
  cases h

/-- Apart from the variable itself, the answers are those of the pattern with the IRI. -/
theorem Opens.map_answers_withSubject (h : k.Opens name) {projection : List String}
    (hname : name ∉ projection) :
    ((k.withSubject (.iri iri)).answers db).map (fun f => projection.map fun x => (x, f x)) =
      (k.answersWith db iri).map fun f => projection.map fun x => (x, f x) := by
  classical
  rw [answers, answersWith, Multiset.map_map, Multiset.map_map]
  have hpasses : (k.withSubject (.iri iri)).Passes = k.PassesWith iri :=
    funext fun choice => propext h.passes_withSubject
  rw [hpasses]
  refine Multiset.map_congr rfl fun choice _ => List.map_congr_left fun x hx => ?_
  have hne : x ≠ name := fun heq => hname (heq ▸ hx)
  show (x, ((k.withSubject (.iri iri)).firstTerm x).bind _) = (x, (k.firstTerm x).bind _)
  rw [h.firstTerm_withSubject hne]
  rfl

/-- Over a database, the texts of the subjects tell whether they are a given IRI. -/
def Tells (db : Database String) (iri : String) (k : Candidate) : Prop :=
  ∀ choice ∈ RowChoice.all db k.rows, (k.term .subject).Tells iri (k.slots choice)

/-- A property that tells the answers with a given subject selects them. -/
theorem filter_answers {P : (String → Option String) → Prop} [DecidablePred P]
    (h : ∀ choice ∈ RowChoice.all db k.rows, P (k.texts choice) ↔
      (BoundTerm.ofIri iri).Equates (k.slots choice) (k.term .subject)) :
    (k.answers db).filter P = k.answersWith db iri := by
  classical
  rw [answers, Multiset.filter_map, Multiset.filter_filter]
  refine congrArg (Multiset.map _) (Multiset.filter_congr fun choice hchoice => ?_)
  rw [and_comm]
  exact and_congr_right' (h choice hchoice)

end Candidate

namespace Draft

open DraftBuilder

variable {E : Setting} {iri name : String} {names : List String}

/-- The rows of a candidate whose subject is compared with an IRI as terms. -/
theorem restrict_candidate {k : Candidate} (hk : k.Opens name) (hname : name ∈ names)
    (t : VariableTable) :
    (empty.addCandidate k >>= fun d => d.restrict names (.equalsIri name iri)).Builds
      Fault.Excluded t fun d t' => d.Sound t' ∧
        ∀ T, t' <+: T → (d.rowsIn E T).map (d.text E) = k.answersWith E.db iri := by
  refine ((addCandidate_evolves sound_empty k).and (addCandidate_chooses (E := E) k t)).bind
    fun d t' _ hd => builds_get_bind ?_
  obtain ⟨⟨hsound, -⟩, hchooses⟩ := hd
  have hlookup : d.bindings.lookup name = some (.term (k.term .subject)) := by
    rw [hchooses.bindings, hk.firstTerm_eq, Option.map_some]
  have hbinding : (d.scope t' names).binding? name = some (.term (k.term .subject)) :=
    (Bindings.lookup_restrict hname).trans hlookup
  refine builds_lift_bind (Expression.condition_equalsIri_term E.textual (hsound.scope t' names)
    hbinding) fun c hc => builds_pure ⟨hsound.addFilter hc.1, fun T hT => ?_⟩
  have hequates : ∀ choice, c.eval E.domain (Row.ofChoice (k.newColumns t) choice) = .yes ↔
      (BoundTerm.ofIri iri).Equates (k.slots choice) (k.term .subject) := by
    intro choice
    rw [← hchooses.slots_eq choice]
    exact hc.2 _
  have hfilter := hchooses.addFilter hequates
  rw [hfilter.rows T hT, Multiset.map_map]
  refine Multiset.map_congr rfl fun choice _ => funext fun x => ?_
  exact hfilter.text_eq (hsound.addFilter hc.1) choice x

theorem filter_sum {α : Type} (P : α → Prop) [DecidablePred P] (l : List (Multiset α)) :
    l.sum.filter P = (l.map (·.filter P)).sum := by
  induction l with
  | nil => rfl
  | cons s l ih => rw [List.sum_cons, Multiset.filter_add, ih, List.map_cons, List.sum_cons]

/-- What a union says of the subjects of its candidates: that none is an IRI, or else the text that
they have if they are a given IRI. -/
theorem union_subjects {ks : List Candidate} (index : Variable)
    (hkeys : ∀ k ∈ ks, ∀ k' ∈ ks, (k.term .subject).keyOf iri = (k'.term .subject).keyOf iri)
    {found : List (Option Binding)}
    (hfound : found = ks.map fun k => some (.term (k.term .subject))) :
    ((UnionDraft.shape index (found.map (·.map Binding.shape))).disjoint (.known .iri) = true →
      ∀ k ∈ ks, (k.term .subject).shape ≠ .iri) ∧
    ∀ k ∈ ks, (k.term .subject).keyOf iri =
      Pattern.decodeText ((found.filterMap id).all Binding.escaped) iri := by
  subst hfound
  refine ⟨fun hdisjoint k hk hshape => ?_, fun k hk => ?_⟩
  · obtain ⟨a, b, ha, hb, hne⟩ := Binding.disjoint_iff.mp hdisjoint
    have hknown := UnionDraft.shape_eq_known ha (c := .known (k.term .subject).shape)
      (List.mem_map.mpr ⟨_, List.mem_map.mpr ⟨k, hk, rfl⟩, rfl⟩)
    cases hb
    cases hknown
    rw [hshape] at hne
    simp at hne
  · cases hall : ((ks.map fun k => some (Binding.term (k.term .subject))).filterMap id).all
        Binding.escaped with
    | true =>
      have hescaped := List.all_eq_true.mp hall (.term (k.term .subject))
        (List.mem_filterMap.mpr ⟨_, List.mem_map.mpr ⟨k, hk, rfl⟩, rfl⟩)
      rw [BoundTerm.keyOf, hescaped]
    | false =>
      obtain ⟨b, hb, hescaped⟩ := List.all_eq_false.mp hall
      obtain ⟨x, hx, rfl⟩ := List.mem_filterMap.mp hb
      obtain ⟨k', hk', hx⟩ := List.mem_map.mp hx
      cases hx
      rw [hkeys k hk k' hk', BoundTerm.keyOf, Bool.eq_false_iff.mpr hescaped]

/-- The rows of several candidates whose subjects are compared with an IRI by their texts. -/
theorem restrict_union {ks : List Candidate} (hne : ks ≠ []) (hks : ∀ k ∈ ks, k.Opens name)
    (htells : ∀ k ∈ ks, k.Tells E.db iri)
    (hkeys : ∀ k ∈ ks, ∀ k' ∈ ks, (k.term .subject).keyOf iri = (k'.term .subject).keyOf iri)
    (hname : name ∈ names) (t : VariableTable) :
    ((BoundTree.union (ks.map .triple)).addTo .empty >>= fun d =>
      d.restrict names (.equalsIri name iri)).Builds Fault.Excluded t fun d t' => d.Sound t' ∧
        ∀ T, t' <+: T → (d.rowsIn E T).map (d.text E) = (ks.map (·.answersWith E.db iri)).sum := by
  have hplain : (BoundTree.union (ks.map .triple)).Plain :=
    BoundTree.plainAll_iff.mpr (List.forall_mem_map.mpr fun _ _ => trivial)
  refine (Builds.and (BoundTree.addTo_evolves_of_plain hplain t)
    (BoundTree.addTo_union_answers (E := E) ks t)).bind fun d t' _ hd => builds_get_bind ?_
  obtain ⟨⟨hsound, -⟩, hbound, hanswers⟩ := hd
  obtain ⟨first, hfirst⟩ := List.exists_mem_of_ne_nil ks hne
  obtain ⟨v, hv⟩ := hbound name first hfirst (by rw [(hks first hfirst).firstTerm_eq]; simp)
  have hfound : (ks.map fun k => (k.firstTerm name).map Binding.term) =
      ks.map fun k => some (.term (k.term .subject)) := by
    refine List.map_congr_left fun k hk => ?_
    rw [(hks k hk).firstTerm_eq, Option.map_some]
  obtain ⟨hshapes, hkey⟩ := union_subjects t.length hkeys hfound
  generalize (ks.map fun k => (k.firstTerm name).map Binding.term) = found at hv hshapes hkey
  have hbinding : (d.scope t' names).binding? name = some (UnionDraft.binding t.length found v) :=
    (Bindings.lookup_restrict hname).trans hv
  refine builds_lift_bind (Expression.condition_equalsIri_value E.textual (hsound.scope t' names)
    hbinding) fun c hc => builds_pure ⟨hsound.addFilter hc.1, fun T hT => ?_⟩
  have htext : ∀ row, d.text E row name = row v := by
    intro row
    rw [text, hv]
    rfl
  -- The condition reads nothing but the text of the variable, so it selects among the answers,
  -- whichever candidate they come from.
  classical
  let IsIri : (String → Option String) → Prop := fun f =>
    (UnionDraft.shape t.length (found.map (·.map Binding.shape))).disjoint (.known .iri) = false ∧
      f name = some (Pattern.decodeText ((found.filterMap id).all Binding.escaped) iri)
  have hkept : ((d.addFilter c).rowsIn E T).map ((d.addFilter c).text E) =
      ((d.rowsIn E T).map (d.text E)).filter IsIri := by
    rw [rowsIn, rows_addFilter, Multiset.filter_map]
    refine congrArg (Multiset.map _) (Multiset.filter_congr fun row _ => ?_)
    rw [hc.2 row, ← htext row]
    rfl
  rw [hkept, hanswers T hT, filter_sum, List.map_map]
  refine congrArg List.sum (List.map_congr_left fun k hk => Candidate.filter_answers ?_)
  intro choice hchoice
  have hsubject : k.texts choice name = (k.term .subject).pattern.text? false (k.slots choice) := by
    rw [Candidate.texts, (hks k hk).firstTerm_eq, Option.bind_some]
  have hiff := (htells k hk choice hchoice).equates_iff
  rw [← hsubject, hkey k hk] at hiff
  rw [hiff]
  refine and_iff_right_of_imp fun htext => Bool.eq_false_iff.mpr fun hdisjoint => ?_
  exact hshapes hdisjoint k hk (hiff.mpr htext).1.symm

end Draft

/-! ### Trees of one triple pattern -/

namespace Candidate

/-- The subject of the pattern has no part in what a rule makes. -/
theorem ofRule_withSubject (x : Term) (q : TriplePattern) (row : Nat) (rule : Rule) :
    ofRule { q with subject := x } row rule =
      ((ofRule q row rule).1.withSubject x, (ofRule q row rule).2) := by
  unfold ofRule
  split
  · rfl
  · split <;> rfl

theorem ofRules_withSubject (x : Term) (q : TriplePattern) (row : Nat) (rules : List Rule) :
    (ofRules { q with subject := x } row rules).1 =
      (ofRules q row rules).1.map (withSubject x) := by
  induction rules generalizing row with
  | nil => rfl
  | cons rule rules ih =>
    simp only [ofRules, ofRule_withSubject, ih, List.map_cons]

/-- The candidates of a triple pattern that can match. -/
def matching (m : Mapping) (row : Nat) (q : TriplePattern) : List Candidate :=
  (ofRules q row m.rules).1.filter (·.canMatch)

end Candidate

namespace BoundTree

theorem prune_ofBranches (ks : List Candidate) :
    (ofBranches (ks.map triple)).prune = ofBranches ((ks.filter (·.canMatch)).map triple) := by
  have hpruned : (pruneAll (ks.map triple)).filter (!·.isNoMatch) =
      (ks.filter (·.canMatch)).map triple := by
    induction ks with
    | nil => rfl
    | cons k ks ih =>
      rw [List.map_cons, pruneAll, prune]
      by_cases hk : k.canMatch = true
      · rw [if_pos hk, List.filter_cons_of_pos rfl, ih, List.filter_cons_of_pos hk, List.map_cons]
      · rw [if_neg hk, List.filter_cons_of_neg (by simp [isNoMatch]), ih,
          List.filter_cons_of_neg hk]
  rcases ks with _ | ⟨k, _ | ⟨k', ks⟩⟩
  · rfl
  · by_cases hk : k.canMatch = true
    · simp [ofBranches, prune, hk]
    · simp [ofBranches, prune, hk]
  · exact congrArg ofBranches hpruned

theorem distribute_ofBranches (limit : Nat) (ks : List Candidate) :
    (distribute limit (ofBranches (ks.map triple))).1 = ofBranches (ks.map triple) := by
  have hflat : flattenUnion (distributeAll limit (ks.map triple)).1 = ks.map triple := by
    rw [distributeAll_eq_map]
    induction ks with
    | nil => rfl
    | cons k ks ih => exact congrArg (triple k :: ·) ih
  rcases ks with _ | ⟨k, _ | ⟨k', ks⟩⟩
  · rfl
  · rfl
  · exact congrArg ofBranches hflat

theorem isNoMatch_ofBranches (ks : List Candidate) :
    (ofBranches (ks.map triple)).isNoMatch = ks.isEmpty := by
  match ks with
  | [] => rfl
  | [_] => rfl
  | _ :: _ :: _ => rfl

theorem optimise_bind_triple (m : Mapping) (row : Nat) (q : TriplePattern) (limit : Nat) :
    (bind m row (.triple q)).1.optimise limit =
      ofBranches ((Candidate.matching m row q).map triple) := by
  rw [optimise, bind, prune_ofBranches, distribute_ofBranches]
  rfl

theorem optimise_bind_filter (m : Mapping) (row : Nat) (e : Expression) (q : TriplePattern)
    (limit : Nat) :
    (bind m row (.filter e (.triple q))).1.optimise limit =
      if (Candidate.matching m row q).isEmpty then noMatch
      else filter e (ofBranches ((Candidate.matching m row q).map triple)) := by
  have hpruned : (ofBranches ((Candidate.ofRules q row m.rules).1.map triple)).prune =
      ofBranches ((Candidate.matching m row q).map triple) := prune_ofBranches _
  have hfilter : ∀ inner, (distribute limit (filter e inner)).1 =
      if (distribute limit inner).1.isNoMatch then noMatch
      else filter e (distribute limit inner).1 := by
    intro inner
    rw [distribute]
    exact apply_ite Prod.fst _ _ _
  rw [optimise, bind, bind, prune, hpruned, hfilter, distribute_ofBranches, isNoMatch_ofBranches]

end BoundTree

namespace Candidate

variable {m : Mapping} {row : Nat} {p o : Term} {name iri : String}

theorem opens_of_mem_ofRules {rules : List Rule} (hp : p ≠ .var name) (ho : o ≠ .var name) :
    ∀ k ∈ (ofRules ⟨.var name, p, o⟩ row rules).1, k.Opens name := by
  intro k hk
  obtain ⟨rule, -, n, rfl⟩ := exists_of_mem_ofRules hk
  have hpattern := pattern_ofRule ⟨.var name, p, o⟩ n rule
  exact ⟨congrArg TriplePattern.subject hpattern, fun h => hp (by rw [← h, hpattern]),
    fun h => ho (by rw [← h, hpattern])⟩

/-- The texts of the subjects of several candidates tell whether they are a given IRI, and what they
tell it by is one text. A single candidate is not compared by its text. -/
def SubjectsTell (db : Database String) (iri : String) (ks : List Candidate) : Prop :=
  ks.length ≤ 1 ∨ (∀ k ∈ ks, k.Tells db iri) ∧
    ∀ k ∈ ks, ∀ k' ∈ ks, (k.term .subject).keyOf iri = (k'.term .subject).keyOf iri

/-- What is zero for the candidates that cannot match need not be summed over them. -/
theorem sum_filter_canMatch {β : Type} [AddCommMonoid β] {f : Candidate → β}
    (h : ∀ k, k.canMatch = false → f k = 0) (ks : List Candidate) :
    ((ks.filter (·.canMatch)).map f).sum = (ks.map f).sum := by
  induction ks with
  | nil => rfl
  | cons k ks ih =>
    rw [List.map_cons, List.sum_cons, ← ih, List.filter_cons]
    split
    · rw [List.map_cons, List.sum_cons]
    · rename_i hk
      rw [h k (Bool.eq_false_iff.mpr hk), zero_add]

/-- Rule by rule, the answers for an IRI as the subject are those whose subject is the IRI. The two
patterns need not have the same candidates that can match: those in which they differ have no
answers. -/
theorem map_sum_answers_matching {db : Database String} {projection : List String}
    (hp : p ≠ .var name) (ho : o ≠ .var name) (hname : name ∉ projection) :
    ((matching m row ⟨.iri iri, p, o⟩).map (answers db)).sum.map
        (fun f => projection.map fun x => (x, f x)) =
      ((matching m row ⟨.var name, p, o⟩).map (answersWith db iri)).sum.map
        fun f => projection.map fun x => (x, f x) := by
  let project := Multiset.mapAddMonoidHom fun f : String → Option String =>
    projection.map fun x => (x, f x)
  let all := (ofRules ⟨.var name, p, o⟩ row m.rules).1
  have hall : (ofRules ⟨.iri iri, p, o⟩ row m.rules).1 = all.map (withSubject (.iri iri)) :=
    ofRules_withSubject (.iri iri) ⟨.var name, p, o⟩ row m.rules
  calc project ((matching m row ⟨.iri iri, p, o⟩).map (answers db)).sum
      = project (all.map fun k => (k.withSubject (.iri iri)).answers db).sum := by
        rw [matching, sum_filter_canMatch fun _ hk => answers_eq_zero hk, hall, List.map_map]
        rfl
    _ = (all.map fun k => project ((k.withSubject (.iri iri)).answers db)).sum := by
        rw [map_list_sum, List.map_map]
        rfl
    _ = (all.map fun k => project (k.answersWith db iri)).sum :=
        congrArg List.sum (List.map_congr_left fun k hk =>
          (opens_of_mem_ofRules hp ho k hk).map_answers_withSubject hname)
    _ = project (all.map (answersWith db iri)).sum := by
        rw [map_list_sum, List.map_map]
        rfl
    _ = project ((matching m row ⟨.var name, p, o⟩).map (answersWith db iri)).sum := by
        rw [matching, sum_filter_canMatch fun _ hk => answersWith_eq_zero hk]

end Candidate

namespace BoundTree

open DraftBuilder

variable {E : Setting} {ks : List Candidate} {name iri : String}

theorem mem_variables_ofBranches (hne : ks ≠ []) (hks : ∀ k ∈ ks, k.Opens name) :
    name ∈ (ofBranches (ks.map triple)).variables := by
  have hvariables : ∀ k ∈ ks, name ∈ k.pattern.variables := by
    intro k hk
    refine List.mem_filterMap.mpr ⟨k.pattern.subject, List.mem_cons_self, ?_⟩
    rw [(hks k hk).subject]
    rfl
  refine mem_sortNames.mpr ?_
  match ks, hne with
  | [k], _ => exact hvariables k List.mem_cons_self
  | k :: _ :: _, _ =>
    exact mem_namesAll.mpr ⟨triple k, List.mem_cons_self, hvariables k List.mem_cons_self⟩

/-- The rows of the candidates whose subjects are compared with an IRI. -/
theorem addTo_filter_answers (hne : ks ≠ []) (hks : ∀ k ∈ ks, k.Opens name)
    (htell : Candidate.SubjectsTell E.db iri ks) (t : VariableTable) :
    ((filter (.equalsIri name iri) (ofBranches (ks.map triple))).addTo .empty).Builds
      Fault.Excluded t fun d t' => d.Sound t' ∧
        ∀ T, t' <+: T → (d.rowsIn E T).map (d.text E) = (ks.map (·.answersWith E.db iri)).sum := by
  have hname := mem_variables_ofBranches hne hks
  match ks, htell with
  | [k], _ =>
    have hsum : ([k].map (·.answersWith E.db iri)).sum = k.answersWith E.db iri :=
      List.sum_singleton
    rw [hsum]
    exact Draft.restrict_candidate (hks k List.mem_cons_self) hname t
  | k :: k' :: ks, htell =>
    obtain hlength | ⟨htells, hkeys⟩ := htell
    · simp at hlength
    · exact Draft.restrict_union hne hks htells hkeys hname t

/-- The rows of the candidates of a triple pattern. -/
theorem addTo_triple_answers (ks : List Candidate) (t : VariableTable) :
    ((ofBranches (ks.map triple)).addTo .empty).Builds Fault.Excluded t fun d t' => d.Sound t' ∧
      ∀ T, t' <+: T → (d.rowsIn E T).map (d.text E) = (ks.map (·.answers E.db)).sum := by
  have hplain : (ofBranches (ks.map triple)).Plain :=
    plain_ofBranches (List.forall_mem_map.mpr fun _ _ => trivial)
  exact (Builds.and (addTo_evolves_of_plain hplain t)
    (addTo_ofBranches_answers (E := E) ks t)).mono fun d t' _ hd => ⟨hd.1.1, hd.2⟩

/-- The answers of a plan are the projected texts of its draft. -/
theorem exists_plan_of_texts {tree : BoundTree} {texts : Multiset (String → Option String)}
    (h : (tree.addTo .empty).Builds Fault.Excluded [] fun d t => d.Sound t ∧
      ∀ T, t <+: T → (d.rowsIn E T).map (d.text E) = texts) (projection : List String) :
    ∃ p, tree.plan projection = .ok p ∧
      p.answers E.domain E.db = texts.map fun f => projection.map fun x => (x, f x) := by
  obtain ⟨p, hp, d, t, htexts, -, ht, hanswers⟩ := (plan_answers (E := E) h projection).exists_ok
  refine ⟨p, hp, ?_⟩
  rw [hanswers, ← htexts p.table ht, Multiset.map_map]
  rfl

/-- A triple pattern whose subject is an IRI has the answers of the pattern with a variable in its
place, under a filter that compares the variable with the IRI. -/
theorem answers_filter_equalsIri {D : ValueDomain String} (hD : D.Textual) (m : Mapping)
    (db : Database String) (row limit : Nat) (iri : String) {s : String} {p o : Term}
    (hp : p ≠ .var s) (ho : o ≠ .var s)
    (htell : Candidate.SubjectsTell db iri (Candidate.matching m row ⟨.var s, p, o⟩))
    {projection : List String} (hs : s ∉ projection) :
    ∃ f t,
      ((bind m row (.filter (.equalsIri s iri) (.triple ⟨.var s, p, o⟩))).1.optimise limit).plan
        projection = .ok f ∧
      ((bind m row (.triple ⟨.iri iri, p, o⟩)).1.optimise limit).plan projection = .ok t ∧
        f.answers D db = t.answers D db := by
  -- Only texts are compared here, so it does not matter which variables are valued or of what kind.
  let E : Setting := ⟨D, hD, db, .own, fun _ => True, fun _ text => ⟨.iri, text⟩,
    fun _ h => absurd trivial h⟩
  have hks : ∀ k ∈ Candidate.matching m row ⟨.var s, p, o⟩, k.Opens s := fun k hk =>
    Candidate.opens_of_mem_ofRules hp ho k (List.mem_filter.mp hk).1
  have hfilter : (((bind m row (.filter (.equalsIri s iri) (.triple ⟨.var s, p, o⟩))).1.optimise
      limit).addTo .empty).Builds Fault.Excluded [] fun d t => d.Sound t ∧ ∀ T, t <+: T →
        (d.rowsIn E T).map (d.text E) =
          ((Candidate.matching m row ⟨.var s, p, o⟩).map (·.answersWith db iri)).sum := by
    rw [optimise_bind_filter]
    generalize Candidate.matching m row ⟨.var s, p, o⟩ = ks at hks htell
    split
    · rename_i hempty
      rw [List.isEmpty_iff.mp hempty]
      exact addTo_triple_answers (E := E) [] []
    · rename_i hne
      exact addTo_filter_answers (E := E) (fun h => hne (List.isEmpty_iff.mpr h)) hks htell []
  have htriple := addTo_triple_answers (E := E) (Candidate.matching m row ⟨.iri iri, p, o⟩) []
  rw [← optimise_bind_triple m row _ limit] at htriple
  obtain ⟨f, hf, hfiltered⟩ := exists_plan_of_texts hfilter projection
  obtain ⟨t, ht, hanswers⟩ := exists_plan_of_texts htriple projection
  refine ⟨f, t, hf, ht, hfiltered.trans (hanswers.trans ?_).symm⟩
  exact Candidate.map_sum_answers_matching hp ho hs

/-- Names from two tables that have the same template for their keys. -/
theorem answers_filter_equalsIri_keys :
    let table (name : String) : LogicalTable :=
      ⟨.table name, [⟨"k", .string, false⟩, ⟨"n", .string, false⟩]⟩
    let map (id : Nat) (name : String) : TriplesMap := ⟨id, name, table name,
      ⟨.template "http://x/{k}" [.text "http://x/", .column "k"], .iri, none, none⟩,
      [⟨[.ofIri "http://x/name"], [.term ⟨.column "n", .literal, none, none⟩]⟩]⟩
    let m : Mapping := ⟨[map 0 "a", map 1 "b"]⟩
    let db : Database String := .ofRecords fun
      | .table "a" => [[("k", "a b"), ("n", "ann")], [("k", "a"), ("n", "al")]]
      | _ => [[("k", "a b"), ("n", "bob")]]
    let iri := "http://x/a%20b"
    let q (subject : Term) : TriplePattern := ⟨subject, .iri "http://x/name", .var "n"⟩
    Candidate.SubjectsTell db iri (Candidate.matching m 0 (q (.var "s"))) ∧
      ∃ f t, ((bind m 0 (.filter (.equalsIri "s" iri) (.triple (q (.var "s"))))).1.optimise 64).plan
          ["n"] = .ok f ∧
        ((bind m 0 (.triple (q (.iri iri)))).1.optimise 64).plan ["n"] = .ok t ∧
          f.answers .texts db = t.answers .texts db ∧
            f.answers .texts db = {[("n", some "ann")], [("n", some "bob")]} := by
  intro table map m db iri q
  let S : Text.Separators := ⟨fun c => c == ':' || c == '/', by decide⟩
  have hspells : S.Spells iri.toList ("http://x/a".toList ++ " b".toList) := by
    have hstart : S.Spells "http://x/a".toList "http://x/a".toList :=
      Text.Separators.spells_of_plain (List.all_eq_true.mp (by decide))
    have hend : S.Spells "%20b".toList " b".toList :=
      .escaped (x := 2) (y := 0) rfl rfl rfl rfl (.plain rfl .nil)
    have hiri : iri.toList = "http://x/a".toList ++ "%20b".toList := by decide
    exact hiri ▸ hstart.append hend
  have hkeys : ∀ k ∈ Candidate.matching m 0 (q (.var "s")), (k.term .subject).shape = .iri ∧
      (k.term .subject).keyOf iri = "http://x/a b" ∧
        ∀ choice ∈ RowChoice.all db k.rows, (k.term .subject).isSeparated S (k.slots choice) := by
    decide +kernel
  have htell : Candidate.SubjectsTell db iri (Candidate.matching m 0 (q (.var "s"))) := by
    refine .inr ⟨fun k hk choice hchoice => ?_, fun k hk k' hk' => ?_⟩
    · obtain ⟨hshape, -, hseparated⟩ := hkeys k hk
      exact BoundTerm.tells_of_isSeparated hshape (hseparated choice hchoice) hspells
    · rw [(hkeys k hk).2.1, (hkeys k' hk').2.1]
  obtain ⟨f, t, hf, ht, hsame⟩ := answers_filter_equalsIri ValueDomain.textual_texts m db 0 64 iri
    (by decide) (by decide) htell (show "s" ∉ ["n"] by decide)
  refine ⟨htell, f, t, hf, ht, hsame, ?_⟩
  have hcomputed : (((bind m 0 (.triple (q (.iri iri)))).1.optimise 64).plan ["n"]).toOption.map
      (·.answers .texts db) = some {[("n", some "ann")], [("n", some "bob")]} := by
    decide +kernel
  rw [ht] at hcomputed
  rw [hsame]
  exact Option.some_inj.mp hcomputed

/-- A template and a constant: the subject of the union is no longer known to be escaped, so the
filter compares the text of the template with the IRI as it is written. -/
theorem filter_equalsIri_misses_template :
    let keyed : TriplesMap := ⟨0, "keyed",
      ⟨.table "keyed", [⟨"k", .string, false⟩, ⟨"n", .string, false⟩]⟩,
      ⟨.template "http://x/key/{k}" [.text "http://x/key/", .column "k"], .iri, none, none⟩,
      [⟨[.ofIri "http://x/name"], [.term ⟨.column "n", .literal, none, none⟩]⟩]⟩
    let plain : TriplesMap := ⟨1, "plain", ⟨.table "plain", [⟨"n", .string, false⟩]⟩,
      ⟨.constant "http://x/other", .iri, none, none⟩,
      [⟨[.ofIri "http://x/name"], [.term ⟨.column "n", .literal, none, none⟩]⟩]⟩
    let d (table : LogicalTable) (name : String) (subject : TermMapDefinition) :
        TriplesMapDefinition := ⟨name, ⟨some name, none, table.columns⟩, subject, [],
      [⟨["http://x/name"], [], [], [.term ⟨none, some "n", none, none, none, none⟩]⟩]⟩
    let ds := [d keyed.table "keyed" ⟨none, none, some "http://x/key/{k}", none, none, none⟩,
      d plain.table "plain" ⟨some "http://x/other", none, none, none, none, none⟩]
    let m : Mapping := ⟨[keyed, plain]⟩
    let db : Database String := .ofRecords fun
      | .table "keyed" => [[("k", "a b"), ("n", "ann")]]
      | _ => []
    let iri := "http://x/key/a%20b"
    let q (subject : Term) : TriplePattern := ⟨subject, .iri "http://x/name", .var "n"⟩
    Mapping.ofDefinitions ds = .ok m ∧
      (((bind m 0 (.filter (.equalsIri "s" iri) (.triple (q (.var "s"))))).1.optimise 64).plan
        ["n"]).toOption.map (·.answers .texts db) = some 0 ∧
      (((bind m 0 (.triple (q (.iri iri)))).1.optimise 64).plan ["n"]).toOption.map
        (·.answers .texts db) = some {[("n", some "ann")]} := by
  intro keyed plain d ds m db iri q
  exact ⟨Result.eq_ok_of_toOption (by decide +kernel), by decide +kernel, by decide +kernel⟩

end BoundTree

end VirtualGraph
