import VirtualGraph.Proofs.Draft.Complements
import VirtualGraph.Proofs.Draft.Terms

/-!
# Meaning of compiled expressions

The value that an expression is compiled to shows the term that the expression has on a solution,
and the condition is true where the expression is. This holds on every row whose bindings are true
and make the solution, wherever the bindings come from, if the expression is steady on the solution.

A condition may be false where the expression has no truth value: terms that are known to differ in
kind or language are not equal, even if one of them is missing. So the condition and the expression
have the same truth value where both sides of every `=` have terms, and otherwise are true together
as long as no such `=` is under a negation.
-/

namespace VirtualGraph

/-! ### Scopes -/

namespace ExpressionScope

variable {E : Setting} {s : ExpressionScope} {row : Row String} {a : Solution}
variable {es es' : List Expression}

/-- A scope has a query variable as a solution has it. -/
structure Shows (E : Setting) (s : ExpressionScope) (row : Row String) (a : Solution)
    (name : String) : Prop where
  term : a name = (s.binding? name).bind (·.termOf E s.columns row name)
  true : ∀ b ∈ s.binding? name, b.TrueOf E s.columns row name

theorem Shows.of_some {name : String} {b : Binding} (hb : s.binding? name = some b)
    (hterm : a name = b.termOf E s.columns row name) (htrue : b.TrueOf E s.columns row name) :
    s.Shows E row a name where
  term := by rw [hb, Option.bind_some, hterm]
  true := fun c hc => by
    obtain rfl : b = c := Option.some_inj.mp (hb.symm.trans hc)
    exact htrue

theorem Shows.of_none {name : String} (hb : s.binding? name = none) (hterm : a name = none) :
    s.Shows E row a name where
  term := by rw [hb, Option.bind_none, hterm]
  true := fun c hc => by cases hb.symm.trans hc

/-- Expressions mean on a row what they mean on a solution. -/
structure Understands (E : Setting) (s : ExpressionScope) (row : Row String) (a : Solution)
    (es : List Expression) : Prop where
  names : ∀ e ∈ es, ∀ name ∈ e.name?, s.Shows E row a name
  steady : Expression.SteadyEach E.rendering a es

theorem Understands.mono (h : s.Understands E row a es) (hes : es' ⊆ es) :
    s.Understands E row a es' where
  names := fun e he => h.names e (hes he)
  steady := h.steady.mono hes

theorem Understands.inner {e : Expression} (h : s.Understands E row a (e :: es)) :
    s.Understands E row a es :=
  h.mono (List.subset_cons_self _ _)

theorem Understands.left {es₁ es₂ : List Expression} (h : s.Understands E row a (es₁ ++ es₂)) :
    s.Understands E row a es₁ :=
  h.mono (List.subset_append_left _ _)

theorem Understands.right {es₁ es₂ : List Expression} (h : s.Understands E row a (es₁ ++ es₂)) :
    s.Understands E row a es₂ :=
  h.mono (List.subset_append_right _ _)

end ExpressionScope

/-! ### Values -/

/-- A computed value shows a term, as far as there is one, and says its shape. -/
structure Computed.Means (E : Setting) (row : Row String) (v : Computed) (x : Option RdfTerm) :
    Prop where
  text : v.scalar.eval E.domain row = x.map E.shown
  shape : ∀ y ∈ x, v.shape.Says E.domain row (some y.shape)
  present : v.nullable = false → x ≠ none

/-- A condition has the truth value of an expression on a solution, if all that is compared with `=`
has terms. If only what is under a negation has terms, the two are true together. -/
structure Condition.Means (E : Setting) (row : Row String) (a : Solution) (e : Expression)
    (c : Condition) : Prop where
  eval_eq : Expression.Decided E.rendering a e.comparisons →
    c.eval E.domain row = e.truth E.rendering a E.domain
  yes_iff : Expression.Decided E.rendering a e.negated →
    (c.eval E.domain row = .yes ↔ e.truth E.rendering a E.domain = .yes)

namespace Condition.Means

variable {E : Setting} {row : Row String} {a : Solution} {e : Expression} {c : Condition}

theorem of_eq (h : c.eval E.domain row = e.truth E.rendering a E.domain) : c.Means E row a e :=
  ⟨fun _ => h, fun _ => by rw [h]⟩

theorem not (h : c.Means E row a e) : (Condition.not c).Means E row a (.not e) where
  eval_eq := fun hdecided => congrArg Truth.not (h.eval_eq hdecided)
  yes_iff := fun hdecided => by
    rw [Condition.eval, Expression.truth, h.eval_eq hdecided]

end Condition.Means

namespace Truth

variable {ts us : List Truth}

theorem eq_ofBool {t : Truth} {b : Bool} (h : t ≠ .unknown) (hyes : t = .yes ↔ b = true) :
    t = .ofBool b := by
  cases t <;> cases b <;> simp_all [ofBool]

theorem all_yes_congr (h : List.Forall₂ (fun t u => t = yes ↔ u = yes) ts us) :
    all ts = yes ↔ all us = yes := by
  induction h with
  | nil => rfl
  | cons ht _ ih => exact and_eq_yes.trans ((and_congr ht ih).trans and_eq_yes.symm)

theorem any_yes_congr (h : List.Forall₂ (fun t u => t = yes ↔ u = yes) ts us) :
    any ts = yes ↔ any us = yes := by
  induction h with
  | nil => rfl
  | cons ht _ ih => exact or_eq_yes.trans ((or_congr ht ih).trans or_eq_yes.symm)

end Truth

theorem Pattern.Legible.present {columns : ColumnIndex} {row : Row String} {p : Pattern}
    (h : p.Legible (columns.slots row)) : p.Present columns row := by
  intro s hs v hv
  obtain ⟨text, htext, -⟩ := h.slots s hs
  have hslot : (columns.get s.row s.column).Meets Fault.Any fun v =>
      ∀ row, row v = columns.slots row s := ColumnIndex.get_slots s
  rw [hv] at hslot
  rw [hslot row, htext]
  exact Option.some_ne_none text

namespace Expression

variable {E : Setting} {s : ExpressionScope} {row : Row String} {a : Solution}

theorem means_constant {v : Computed} {x : RdfTerm} {text : String}
    (hshape : v.shape = .known x.shape) (hshown : E.shown x = text)
    (htext : v.scalar.eval E.domain row = some text) : v.Means E row (some x) where
  text := htext.trans (congrArg some hshown.symm)
  shape := fun y hy => by
    cases hy
    rw [hshape]
    exact .known x.shape
  present := fun _ => Option.some_ne_none x

/-- A plain literal that is made from a text. -/
theorem means_plain {v : Computed} {text : Option String} (hshape : v.shape = .known .plainLiteral)
    (htext : v.scalar.eval E.domain row = text) (hpresent : v.nullable = false → text ≠ none) :
    v.Means E row (text.map (RdfTerm.mk .plainLiteral)) where
  text := by
    rw [htext, Option.map_map]
    exact (Option.map_id.symm ▸ congrArg (Option.map · text)
      (funext fun text => (E.rendering.text_plainLiteral text).symm) : text = _)
  shape := fun y hy => by
    obtain ⟨text, -, rfl⟩ := Option.map_eq_some_iff.mp hy
    rw [hshape]
    exact .known .plainLiteral
  present := fun hnull => by
    rw [ne_eq, Option.map_eq_none_iff]
    exact hpresent hnull

theorem variableValue_means {name : String} (h : s.Shows E row a name) :
    (s.variableValue name).Meets Fault.Any fun v => v.Means E row (a name) := by
  unfold ExpressionScope.variableValue
  rw [h.term]
  cases hb : s.binding? name with
  | none => exact ⟨rfl, fun _ hy => (by cases hy), fun hnull => (by cases hnull)⟩
  | some b =>
    have htrue := h.true b hb
    refine (Binding.toScalar_eval E s.columns b).bind fun x hx => ?_
    exact ⟨hx row name htrue, fun y hy => htrue.shape hy, htrue.termOf_ne_none⟩

/-- The values of expressions. -/
def MeansEach (E : Setting) (row : Row String) (a : Solution) :
    List Expression → List Computed → Prop :=
  List.Forall₂ fun e v => v.Means E row (e.termOn E.rendering a)

section

variable {es : List Expression} {values : List Computed} (h : MeansEach E row a es values)

include h

theorem MeansEach.evalAll :
    Scalar.evalAll E.domain row (values.map (·.scalar)) = textsOn E.rendering a es := by
  unfold MeansEach at h
  induction h with
  | nil => rfl
  | @cons e v es values hv _ ih =>
    rw [List.map_cons, Scalar.evalAll, textsOn, hv.text, ih]
    cases e.termOn E.rendering a <;> cases textsOn E.rendering a es <;> rfl

theorem MeansEach.evalFirst : Scalar.evalFirst E.domain row (values.map (·.scalar)) =
    (firstOn E.rendering a es).map E.shown := by
  unfold MeansEach at h
  induction h with
  | nil => rfl
  | @cons e v es values hv _ ih =>
    rw [List.map_cons, Scalar.evalFirst, firstOn, hv.text, ih]
    exact Option.map_or.symm

/-- The first term that is there is that of one of the values. -/
theorem MeansEach.exists_shape {y : RdfTerm} (hy : firstOn E.rendering a es = some y) :
    ∃ v ∈ values, v.shape.Says E.domain row (some y.shape) := by
  unfold MeansEach at h
  induction h with
  | nil => cases hy
  | @cons e v es values hv _ ih =>
    obtain hy | ⟨-, hy⟩ := Option.or_eq_some_iff.mp hy
    · exact ⟨v, List.mem_cons_self, hv.shape y hy⟩
    · obtain ⟨w, hw, hshape⟩ := ih hy
      exact ⟨w, List.mem_cons_of_mem _ hw, hshape⟩

/-- A value that is said not to be null is not. -/
theorem MeansEach.ne_none : ∀ v ∈ values, v.nullable = false →
    v.scalar.eval E.domain row ≠ none := by
  unfold MeansEach at h
  induction h with
  | nil => exact fun _ hv => absurd hv List.not_mem_nil
  | cons hv _ ih =>
    refine List.forall_mem_cons.mpr ⟨fun hnull => ?_, ih⟩
    rw [hv.text, ne_eq, Option.map_eq_none_iff]
    exact hv.present hnull

theorem MeansEach.textsOn_ne_none (hnull : values.any (·.nullable) = false) :
    textsOn E.rendering a es ≠ none := by
  rw [← h.evalAll]
  refine Scalar.evalAll_ne_none (List.forall_mem_map.mpr fun v hv => h.ne_none v hv ?_)
  exact Bool.eq_false_of_not_eq_true (List.any_eq_false.mp hnull v hv)

theorem MeansEach.firstValue : (firstValue values).Means E row (firstOn E.rendering a es) where
  text := h.evalFirst
  shape := fun y hy => by
    obtain ⟨v, hv, hshape⟩ := h.exists_shape hy
    exact firstValue_says hv hshape
  present := fun hnull => by
    obtain ⟨v, hv, hnull⟩ := List.all_eq_false.mp hnull
    have hthere := h.ne_none v hv (Bool.eq_false_of_not_eq_true hnull)
    intro hnone
    have hfirst := h.evalFirst
    rw [hnone, Option.map_none, Scalar.evalFirst_eq_none] at hfirst
    exact hthere (hfirst _ (List.mem_map_of_mem hv))

end

/-- The language of a term that is there is told by its shape. -/
theorem Means.language {v : Computed} {x : RdfTerm} (h : v.Means E row (some x)) {language : Scalar}
    (hlanguage : v.shape.language? = some language) :
    language.eval E.domain row = some x.shape.tag := by
  rw [(h.shape x rfl).eval_language E.textual.tellsNumbers hlanguage, Option.map_some,
    E.textual.constant]

mutual

/-- The value of an expression shows its term. -/
theorem value_means : ∀ e : Expression, s.Understands E row a e.subterms →
    (e.value s).Meets Fault.Any fun v => v.Means E row (e.termOn E.rendering a)
  | var name, h => variableValue_means (h.names _ List.mem_cons_self name rfl)
  | constant (.var name), h => variableValue_means (h.names _ List.mem_cons_self name rfl)
  | constant (.iri i), h =>
    means_constant rfl (E.rendering.text_iri (h.steady.iris i List.mem_cons_self))
      (congrArg some (E.textual.constant i .string))
  | constant (.literal l), _ =>
    means_constant rfl (E.rendering.text_literal l) (congrArg some (E.textual.constant l.value _))
  | str inner, h => by
    refine (value_means inner h.inner).bind fun v hv => ?_
    have hplain := means_plain
      (v := ⟨v.scalar, v.type, .known .plainLiteral, v.nullable, false⟩) rfl hv.text fun hnull => by
        rw [ne_eq, Option.map_eq_none_iff]
        exact hv.present hnull
    rwa [Option.map_map] at hplain
  | lang inner, h => by
    refine (value_means inner h.inner).bind fun v hv => ?_
    obtain ⟨x, hx⟩ := Option.ne_none_iff_exists'.mp (h.steady.languages inner List.mem_cons_self)
    cases hlanguage : v.shape.language? with
    | none => trivial
    | some language =>
      rw [hx] at hv
      rw [termOn, hx]
      exact means_plain (v := plainText language v.nullable) rfl (Means.language hv hlanguage)
        fun _ => Option.some_ne_none _
  | concat items, h => by
    refine (valueEach_means items h.inner).bind fun values hvalues => ?_
    have heval : (plainText (.concat (values.map (·.scalar))) (values.any (·.nullable))).scalar.eval
        E.domain row = (textsOn E.rendering a items).map String.join := by
      show (Scalar.evalAll E.domain row (values.map (·.scalar))).map E.domain.concat = _
      rw [hvalues.evalAll]
      exact congrArg (Option.map · _) (funext E.textual.concat)
    have hplain := means_plain rfl heval fun hnull => by
      rw [ne_eq, Option.map_eq_none_iff]
      exact hvalues.textsOn_ne_none hnull
    rwa [Option.map_map] at hplain
  | coalesce items, h => (valueEach_means items h.inner).bind fun _ hvalues => hvalues.firstValue
  | and _, _ => trivial
  | or _, _ => trivial
  | not _, _ => trivial
  | bound _, _ => trivial
  | compare _ _ _, _ => trivial
  | langMatches _ _, _ => trivial
  | strStarts _ _, _ => trivial
  | strEnds _ _, _ => trivial
  | contains _ _, _ => trivial

theorem valueEach_means : ∀ es : List Expression, s.Understands E row a (subtermsAll es) →
    (valueEach s es).Meets Fault.Any (MeansEach E row a es)
  | [], _ => List.Forall₂.nil
  | e :: rest, h => (value_means e h.left).bind fun _ hv =>
    (valueEach_means rest h.right).bind fun _ hvs => List.Forall₂.cons hv hvs

end

/-! ### Comparisons -/

theorem operand_means {e : Expression} (other : Expression)
    (h : s.Understands E row a e.subterms) :
    (operand s e other).Meets Fault.Any fun v => v.Means E row (e.termOn E.rendering a) := by
  refine (value_means e h).and_eq_ok.bind fun v hv => ?_
  split
  · rename_i i text type _
    have hv' : v = ⟨.constant i .string, .string, .known .iri, false, false⟩ :=
      (Except.ok.inj hv.1).symm
    have hpercent := h.steady.iris i List.mem_cons_self
    split
    · refine means_constant (congrArg Computed.shape hv') (E.rendering.text_iri hpercent) ?_
      show some (E.domain.constant _ _) = _
      rw [E.textual.constant, Text.percentDecode_eq_self hpercent]
    · exact hv.2
  · exact hv.2

/-- A term whose pattern is known is the one that the solution has. -/
theorem term?_means {e : Expression} (h : s.Understands E row a e.subterms) {t : BoundTerm}
    (ht : e.term? s = some t) : t.pattern.Legible (s.columns.slots row) ∧
      e.termOn E.rendering a = some (t.onRow s.columns row) ∧
        E.shown (t.onRow s.columns row) = t.textOn s.columns row := by
  unfold term? at ht
  split at ht
  · rename_i name
    have hshows := h.names _ List.mem_cons_self name rfl
    split at ht
    · rename_i t' hb
      cases ht
      have htrue : t.TrueOf E s.columns row name := hshows.true _ hb
      refine ⟨htrue.legible, ?_, htrue.shown⟩
      rw [termOn, hshows.term, hb]
      rfl
    · cases ht
  · rename_i i
    cases ht
    have hpercent := h.steady.iris i List.mem_cons_self
    have honRow : BoundTerm.onRow s.columns row ⟨.ofText i true, .iri⟩ = ⟨.iri, i⟩ :=
      congrArg (RdfTerm.mk .iri) Pattern.render_ofText
    refine ⟨Pattern.legible_ofText fun _ => hpercent, congrArg some honRow.symm, ?_⟩
    exact (congrArg E.shown honRow).trans
      ((E.rendering.text_iri hpercent).trans Pattern.render_ofText.symm)
  · cases ht

section

variable {S : Rendering} {D : ValueDomain String} {x y : RdfTerm}

theorem compareOn_eq (hD : D.Textual) (htexts : S.text x = S.text y → x = y) :
    compareOn S D .eq (some x) (some y) = .ofBool (decide (x = y)) := by
  refine congrArg Truth.ofBool (Bool.eq_iff_iff.mpr ?_)
  show (D.order (S.text x) (S.text y)).isEq = true ↔ _
  rw [hD.order, decide_eq_true_eq]
  exact ⟨htexts, congrArg S.text⟩

theorem compareOn_ne (hD : D.Textual) (htexts : S.text x = S.text y → x = y) :
    compareOn S D .ne (some x) (some y) = (Truth.ofBool (decide (x = y))).not := by
  rw [← compareOn_eq hD htexts]
  show Truth.ofBool (D.order (S.text x) (S.text y)).isNe =
    (Truth.ofBool (D.order (S.text x) (S.text y)).isEq).not
  cases D.order (S.text x) (S.text y) <;> rfl

end

/-- Whether two terms are equal is decided where both are legible. -/
theorem equality_means {t u : BoundTerm} (ht : t.pattern.Legible (s.columns.slots row))
    (hu : u.pattern.Legible (s.columns.slots row))
    (htexts : t.textOn s.columns row = u.textOn s.columns row ↔
      t.onRow s.columns row = u.onRow s.columns row) :
    (t.equality s.columns u).Meets Fault.Any fun c => c.eval E.domain row =
      .ofBool (decide (t.onRow s.columns row = u.onRow s.columns row)) := by
  refine ((BoundTerm.equality_eval E.textual t u).and
    (BoundTerm.equality_ne_unknown (D := E.domain) ht.present hu.present)).mono fun c hc => ?_
  exact Truth.eq_ofBool hc.2 ((hc.1 row ht hu fun _ _ => htexts).trans decide_eq_true_iff.symm)

/-- Terms of known patterns, one of which is an IRI, are compared as terms. -/
theorem comparison_means_terms {op : Comparator} {l r : Expression}
    (h : s.Understands E row a (compare op l r).subterms) (hop : op = .eq ∨ op = .ne)
    (hterms : ComparesTerms s l r) : (comparison s op l r).Meets Fault.Any fun c =>
      c.eval E.domain row = (compare op l r).truth E.rendering a E.domain := by
  obtain ⟨t, u, ht, hu, hiri⟩ := hterms
  obtain ⟨hequal, hunequal⟩ := comparison_of_comparesTerms ht hu hiri
  obtain ⟨ht, hx, hshown⟩ := term?_means h.inner.left ht
  obtain ⟨hu, hy, hshown'⟩ := term?_means h.inner.right hu
  have htexts := fun hsame => h.steady.shown op l r List.mem_cons_self hop _ _ hx hy hsame hiri
  have hmeans := equality_means (E := E) ht hu ⟨fun hsame => htexts
    (hshown.trans (hsame.trans hshown'.symm)), fun hsame => by rw [← hshown, ← hshown', hsame]⟩
  obtain rfl | rfl := hop
  · rw [hequal]
    refine hmeans.mono fun c hc => ?_
    rw [hc, truth, hx, hy, compareOn_eq E.textual htexts]
  · rw [hunequal]
    refine hmeans.map fun c hc => ?_
    rw [Condition.eval, hc, truth, hx, hy, compareOn_ne E.textual htexts]

/-- Values of shapes that are known to differ are not equal. -/
theorem not_compareOn_yes {v w : Computed} {l r : Expression}
    (h : s.Understands E row a (compare .eq l r).subterms)
    (hv : v.Means E row (l.termOn E.rendering a)) (hw : w.Means E row (r.termOn E.rendering a))
    (hdisjoint : v.shape.disjoint w.shape = true) :
    (compare .eq l r).truth E.rendering a E.domain ≠ .yes ∧
      (l.termOn E.rendering a ≠ none ∧ r.termOn E.rendering a ≠ none →
        (compare .eq l r).truth E.rendering a E.domain = .no) := by
  obtain ⟨k, k', hk, hk', hne⟩ := Binding.disjoint_iff.mp hdisjoint
  rw [truth]
  cases hx : l.termOn E.rendering a with
  | none => exact ⟨fun h => Truth.noConfusion h, fun hthere => absurd rfl hthere.1⟩
  | some x =>
    cases hy : r.termOn E.rendering a with
    | none => exact ⟨fun h => Truth.noConfusion h, fun hthere => absurd rfl hthere.2⟩
    | some y =>
      have hxk : x.shape = k := (hk ▸ hv.shape x hx).shape_eq
      have hyk : y.shape = k' := (hk' ▸ hw.shape y hy).shape_eq
      have htexts : E.rendering.text x ≠ E.rendering.text y := fun hsame => by
        obtain ⟨htype, hlanguage⟩ := h.steady.kinds l r List.mem_cons_self x y hx hy hsame
        rw [hxk, hyk] at htype hlanguage
        exact hne.elim (· htype) (· hlanguage)
      have hno : compareOn E.rendering E.domain .eq (some x) (some y) = .no := by
        rw [compareOn_eq E.textual fun hsame => absurd hsame htexts, Truth.ofBool_eq_no,
          decide_eq_false_iff_not]
        exact fun heq => htexts (congrArg _ heq)
      rw [hno]
      exact ⟨fun h => Truth.noConfusion h, fun _ => rfl⟩

/-- A comparison has the truth value that its terms have, or is false where one is missing. -/
theorem comparison_means {op : Comparator} {l r : Expression}
    (h : s.Understands E row a (compare op l r).subterms) :
    (comparison s op l r).Meets Fault.Any fun c => c.Means E row a (compare op l r) := by
  -- Terms are compared by their patterns, all else by values; only `=` looks at shapes then.
  by_cases hterms : (op = .eq ∨ op = .ne) ∧ ComparesTerms s l r
  · exact (comparison_means_terms h hterms.1 hterms.2).mono fun c hc => .of_eq hc
  · have hvalues : comparison s op l r = compareValues s op l r := by
      by_cases hcompares : ComparesTerms s l r
      · cases op <;> first | rfl | exact absurd ⟨by simp, hcompares⟩ hterms
      · exact comparison_of_not_comparesTerms hcompares op
    rw [hvalues]
    refine (operand_means r h.inner.left).bind fun x hx =>
      (operand_means l h.inner.right).bind fun y hy => ?_
    split
    · rename_i hdisjoint
      obtain ⟨rfl, hdisjoint⟩ := hdisjoint
      obtain ⟨hyes, hno⟩ := not_compareOn_yes h hx hy hdisjoint
      refine ⟨fun hdecided => ?_, fun _ => iff_of_false (fun h => Truth.noConfusion h) hyes⟩
      exact (hno (hdecided l r List.mem_cons_self)).symm
    · refine .of_eq ?_
      show Condition.eval E.domain row (.compare op x.scalar y.scalar) = _
      rw [Condition.eval, hx.text, hy.text, truth]
      cases l.termOn E.rendering a <;> cases r.termOn E.rendering a <;> rfl

/-! ### Conditions -/

/-- A query variable is bound where its binding is not null. -/
theorem bound_means {name : String} (h : s.Shows E row a name) :
    ((bound name).condition s).Meets Fault.Any fun c =>
      c.eval E.domain row = .ofBool (a name).isSome := by
  rw [condition, h.term]
  cases hb : s.binding? name with
  | none => exact rfl
  | some b =>
    have hnull := (h.true b hb).termOf_eq_none
    rw [Option.bind_some, Option.map_some]
    cases hv : b.nullVariable? with
    | none =>
      have hbound : b.termOf E s.columns row name ≠ none := by
        rw [ne_eq, hnull, hv]
        simp
      obtain ⟨x, hx⟩ := Option.ne_none_iff_exists'.mp hbound
      rw [hx]
      exact rfl
    | some v =>
      have hiff : b.termOf E s.columns row name = none ↔ row v = none := by
        rw [hnull, hv]
        simp
      show (Truth.ofBool (row v).isNone).not = _
      cases hx : b.termOf E s.columns row name with
      | none => rw [hiff.mp hx]; rfl
      | some x =>
        have hne : row v ≠ none := fun h => by simp [hiff.mpr h] at hx
        obtain ⟨text, htext⟩ := Option.ne_none_iff_exists'.mp hne
        rw [htext]
        rfl

theorem likeCondition_means (whole : Expression) {v : Expression} (part : Expression)
    (pattern : String → String) (h : s.Understands E row a v.subterms) :
    (likeCondition s whole v part pattern).Meets Fault.Any fun c => c.eval E.domain row =
      testOn E.rendering (fun text x => E.domain.like x (pattern (likeText text))) part
        (v.termOn E.rendering a) := by
  unfold likeCondition testOn
  cases part.literalText? with
  | none => trivial
  | some text =>
    refine (value_means v h).bind fun x hx => ?_
    show Condition.eval E.domain row (.like x.scalar _) = _
    rw [Condition.eval, hx.text]
    cases v.termOn E.rendering a <;> rfl

theorem langMatches_means {v : Expression} (range : Expression)
    (h : s.Understands E row a v.subterms) :
    ((langMatches v range).condition s).Meets Fault.Any fun c =>
      c.eval E.domain row = (langMatches v range).truth E.rendering a E.domain := by
  rw [condition, truth]
  unfold testOn
  cases range.literalText? with
  | none => trivial
  | some text =>
    refine (value_means v h).bind fun x hx => ?_
    show Condition.eval E.domain row (.langMatches x.scalar _) = _
    rw [Condition.eval, hx.text]
    cases v.termOn E.rendering a <;> rfl

section

variable {es : List Expression} {cs : List Condition}
variable (h : List.Forall₂ (fun e c => Condition.Means E row a e c) es cs)

include h

theorem evalEach_eq (hdecided : Decided E.rendering a (comparisonsAll es)) :
    Condition.evalEach E.domain row cs = truthEach E.rendering a E.domain es := by
  induction h with
  | nil => rfl
  | cons hc _ ih =>
    exact congrArg₂ List.cons (hc.eval_eq (hdecided.mono (List.subset_append_left _ _)))
      (ih (hdecided.mono (List.subset_append_right _ _)))

theorem evalEach_yes_iff (hdecided : Decided E.rendering a (negatedAll es)) :
    List.Forall₂ (fun t u : Truth => t = .yes ↔ u = .yes) (Condition.evalEach E.domain row cs)
      (truthEach E.rendering a E.domain es) := by
  induction h with
  | nil => exact .nil
  | cons hc _ ih =>
    exact .cons (hc.yes_iff (hdecided.mono (List.subset_append_left _ _)))
      (ih (hdecided.mono (List.subset_append_right _ _)))

theorem means_and : (Condition.and cs).Means E row a (and es) where
  eval_eq := fun hdecided => congrArg Truth.all (evalEach_eq h hdecided)
  yes_iff := fun hdecided => Truth.all_yes_congr (evalEach_yes_iff h hdecided)

theorem means_or : (Condition.or cs).Means E row a (or es) where
  eval_eq := fun hdecided => congrArg Truth.any (evalEach_eq h hdecided)
  yes_iff := fun hdecided => Truth.any_yes_congr (evalEach_yes_iff h hdecided)

end

mutual

/-- The condition of an expression is true where the expression is. -/
theorem condition_means : ∀ e : Expression, s.Understands E row a e.subterms →
    (e.condition s).Meets Fault.Any fun c => c.Means E row a e
  | constant (.literal l), _ => by
    rw [condition]
    cases hbool : l.bool? with
    | none => trivial
    | some b => cases b <;> exact .of_eq (by rw [truth, hbool]; rfl)
  | constant (.var _), _ => trivial
  | constant (.iri _), _ => trivial
  | var _, _ => trivial
  | and items, h => (conditionEach_means items h.inner).bind fun _ hcs => means_and hcs
  | or items, h => (conditionEach_means items h.inner).bind fun _ hcs => means_or hcs
  | not inner, h => (condition_means inner h.inner).bind fun _ hc => hc.not
  | bound name, h =>
    (bound_means (h.names _ List.mem_cons_self name rfl)).mono fun _ hc => .of_eq hc
  | compare _ _ _, h => comparison_means h
  | langMatches _ range, h => (langMatches_means range h.inner.left).mono fun _ hc => .of_eq hc
  | strStarts _ part, h =>
    (likeCondition_means _ part (fun t => t ++ "%") h.inner.left).mono fun _ hc => .of_eq hc
  | strEnds _ part, h =>
    (likeCondition_means _ part (fun t => "%" ++ t) h.inner.left).mono fun _ hc => .of_eq hc
  | contains _ part, h =>
    (likeCondition_means _ part (fun t => "%" ++ t ++ "%") h.inner.left).mono fun _ hc => .of_eq hc
  | lang _, _ => trivial
  | str _, _ => trivial
  | concat _, _ => trivial
  | coalesce _, _ => trivial

theorem conditionEach_means : ∀ es : List Expression, s.Understands E row a (subtermsAll es) →
    (conditionEach s es).Meets Fault.Any
      (List.Forall₂ (fun e c => Condition.Means E row a e c) es)
  | [], _ => List.Forall₂.nil
  | e :: rest, h => (condition_means e h.left).bind fun _ hc =>
    (conditionEach_means rest h.right).bind fun _ hcs => List.Forall₂.cons hc hcs

end

/-- The condition of an expression that is steady on a solution is true on the rows that show the
solution exactly if the expression is true on it. -/
theorem condition_yes_iff {e : Expression} (he : e.Steady E.rendering a)
    (hnames : ∀ name ∈ e.names, s.Shows E row a name) {c : Condition}
    (hc : e.condition s = .ok c) :
    c.eval E.domain row = .yes ↔ e.truth E.rendering a E.domain = .yes := by
  have hmeans := condition_means e (s := s) ⟨fun e' he' name hname =>
    hnames name (List.mem_filterMap.mpr ⟨e', he', hname⟩), he.parts⟩
  rw [hc] at hmeans
  exact hmeans.yes_iff he.negated

end Expression

end VirtualGraph
