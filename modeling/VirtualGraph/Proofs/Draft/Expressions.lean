import VirtualGraph.Proofs.Bound.Solutions
import VirtualGraph.Proofs.Draft.Present
import VirtualGraph.Proofs.Text.Percent

/-!
# Expressions on solutions

What an expression comes to on a solution: a term, if it has a value, and a truth value, if it is a
condition. A row does not hold terms but texts that show them. An IRI of a template is shown with
the values of its columns as they are, where the IRI has them percent-encoded, so the text that
shows it need not be its own. Expressions compute, compare and test the texts that show terms.

An expression is steady on a solution if it means the same wherever it is computed. For this four
things are asked for. IRIs are written with no percent sign. Values are asked for their language
where they are there. Where two terms are tested for equality, the texts that show them tell IRIs
apart from all other terms, and for `=` also terms that differ in kind or language. And where `=` is
under a negation, both its sides are there, since it may be decided without them.
-/

namespace VirtualGraph

/-- How rows show terms. Only an IRI with a percent sign may be shown by another text than its
own. -/
structure Rendering where
  text : RdfTerm → String
  plain : ∀ x, x.shape.termType ≠ .iri ∨ '%' ∉ x.text.toList → text x = x.text

namespace Rendering

/-- Every term is shown by its own text. -/
def own : Rendering := ⟨RdfTerm.text, fun _ _ => rfl⟩

/-- IRIs are shown decoded. -/
def decoded : Rendering where
  text x := if x.shape.termType = .iri then Text.percentDecode x.text else x.text
  plain := fun x hx => by
    split
    · rename_i hiri
      exact Text.percentDecode_eq_self (hx.resolve_left (absurd hiri))
    · rfl

variable (S : Rendering)

@[simp] theorem text_plainLiteral (text : String) : S.text ⟨.plainLiteral, text⟩ = text :=
  S.plain _ (.inl nofun)

@[simp] theorem text_literal (l : Literal) : S.text ⟨.ofLiteral l, l.value⟩ = l.value :=
  S.plain _ (.inl nofun)

theorem text_iri {i : String} (h : '%' ∉ i.toList) : S.text ⟨.iri, i⟩ = i :=
  S.plain _ (.inr h)

end Rendering

namespace Expression

/-! ### Parts of an expression -/

mutual

/-- An expression and all expressions in it. -/
def subterms : Expression → List Expression
  | var name => [var name]
  | constant term => [constant term]
  | compare op l r => compare op l r :: (subterms l ++ subterms r)
  | and items => and items :: subtermsAll items
  | or items => or items :: subtermsAll items
  | not inner => not inner :: subterms inner
  | bound name => [bound name]
  | lang inner => lang inner :: subterms inner
  | str inner => str inner :: subterms inner
  | langMatches l r => langMatches l r :: (subterms l ++ subterms r)
  | strStarts l r => strStarts l r :: (subterms l ++ subterms r)
  | strEnds l r => strEnds l r :: (subterms l ++ subterms r)
  | contains l r => contains l r :: (subterms l ++ subterms r)
  | concat items => concat items :: subtermsAll items
  | coalesce items => coalesce items :: subtermsAll items
termination_by structural x => x

def subtermsAll : List Expression → List Expression
  | [] => []
  | e :: rest => subterms e ++ subtermsAll rest
termination_by structural x => x

end

mutual

/-- The comparisons that a condition is made of. -/
def comparisons : Expression → List Expression
  | compare op l r => [compare op l r]
  | and items => comparisonsAll items
  | or items => comparisonsAll items
  | not inner => comparisons inner
  | _ => []
termination_by structural x => x

def comparisonsAll : List Expression → List Expression
  | [] => []
  | e :: rest => comparisons e ++ comparisonsAll rest
termination_by structural x => x

end

mutual

/-- The comparisons of a condition that are under a negation. -/
def negated : Expression → List Expression
  | and items => negatedAll items
  | or items => negatedAll items
  | not inner => comparisons inner
  | _ => []
termination_by structural x => x

def negatedAll : List Expression → List Expression
  | [] => []
  | e :: rest => negated e ++ negatedAll rest
termination_by structural x => x

end

/-- A list of expressions that has, with each of them, all expressions in it. -/
def Closed (es : List Expression) : Prop := ∀ e ∈ es, e.subterms ⊆ es

theorem closed_nil : Closed [] := fun _ he => absurd he List.not_mem_nil

theorem Closed.append {es es' : List Expression} (h : Closed es) (h' : Closed es') :
    Closed (es ++ es') := by
  intro e he
  obtain he | he := List.mem_append.mp he
  · exact List.Subset.trans (h e he) (List.subset_append_left _ _)
  · exact List.Subset.trans (h' e he) (List.subset_append_right _ _)

theorem Closed.cons {e : Expression} {es : List Expression} (h : Closed es)
    (he : e.subterms = e :: es) : Closed (e :: es) := by
  intro e' he'
  obtain rfl | he' := List.mem_cons.mp he'
  · exact he ▸ List.Subset.refl _
  · exact List.Subset.trans (h e' he') (List.subset_cons_self _ _)

mutual

theorem closed_subterms : ∀ e : Expression, Closed e.subterms
  | var _ => closed_nil.cons rfl
  | constant _ => closed_nil.cons rfl
  | bound _ => closed_nil.cons rfl
  | compare _ l r => ((closed_subterms l).append (closed_subterms r)).cons rfl
  | and items => (closed_subtermsAll items).cons rfl
  | or items => (closed_subtermsAll items).cons rfl
  | not inner => (closed_subterms inner).cons rfl
  | lang inner => (closed_subterms inner).cons rfl
  | str inner => (closed_subterms inner).cons rfl
  | langMatches l r => ((closed_subterms l).append (closed_subterms r)).cons rfl
  | strStarts l r => ((closed_subterms l).append (closed_subterms r)).cons rfl
  | strEnds l r => ((closed_subterms l).append (closed_subterms r)).cons rfl
  | contains l r => ((closed_subterms l).append (closed_subterms r)).cons rfl
  | concat items => (closed_subtermsAll items).cons rfl
  | coalesce items => (closed_subtermsAll items).cons rfl

theorem closed_subtermsAll : ∀ es : List Expression, Closed (subtermsAll es)
  | [] => closed_nil
  | e :: rest => (closed_subterms e).append (closed_subtermsAll rest)

end

mutual

theorem comparisons_subset : ∀ e : Expression, e.comparisons ⊆ e.subterms
  | compare _ _ _ => List.cons_subset.mpr ⟨List.mem_cons_self, List.nil_subset _⟩
  | and items => List.subset_cons_of_subset _ (comparisonsAll_subset items)
  | or items => List.subset_cons_of_subset _ (comparisonsAll_subset items)
  | not inner => List.subset_cons_of_subset _ (comparisons_subset inner)
  | var _ | constant _ | bound _ | lang _ | str _ | langMatches _ _ | strStarts _ _ | strEnds _ _
  | contains _ _ | concat _ | coalesce _ => List.nil_subset _

theorem comparisonsAll_subset : ∀ es : List Expression, comparisonsAll es ⊆ subtermsAll es
  | [] => List.nil_subset _
  | e :: rest => append_subset_append (comparisons_subset e) (comparisonsAll_subset rest)

end

mutual

/-- The comparisons under a negation are among all comparisons. -/
theorem negated_subset : ∀ e : Expression, e.negated ⊆ e.comparisons
  | and items => negatedAll_subset items
  | or items => negatedAll_subset items
  | not _ => List.Subset.refl _
  | compare _ _ _ | var _ | constant _ | bound _ | lang _ | str _ | langMatches _ _
  | strStarts _ _ | strEnds _ _ | contains _ _ | concat _ | coalesce _ => List.nil_subset _

theorem negatedAll_subset : ∀ es : List Expression, negatedAll es ⊆ comparisonsAll es
  | [] => List.nil_subset _
  | e :: rest => append_subset_append (negated_subset e) (negatedAll_subset rest)

end

theorem negated_subset_subterms (e : Expression) : e.negated ⊆ e.subterms :=
  List.Subset.trans (negated_subset e) (comparisons_subset e)

/-- The query variable that an expression is about itself. -/
def name? : Expression → Option String
  | var name => some name
  | constant (.var name) => some name
  | bound name => some name
  | _ => none

/-- The query variables of an expression. -/
def names (e : Expression) : List String := e.subterms.filterMap name?

/-! ### Meaning -/

section

variable (S : Rendering) (a : Solution)

mutual

/-- The term that an expression has on a solution. -/
def termOn : Expression → Option RdfTerm
  | var name => a name
  | constant (.var name) => a name
  | constant (.iri i) => some ⟨.iri, i⟩
  | constant (.literal l) => some ⟨.ofLiteral l, l.value⟩
  | lang inner => (termOn inner).map fun x => ⟨.plainLiteral, x.shape.tag⟩
  | str inner => (termOn inner).map fun x => ⟨.plainLiteral, S.text x⟩
  | concat items => (textsOn items).map fun texts => ⟨.plainLiteral, String.join texts⟩
  | coalesce items => firstOn items
  | _ => none
termination_by structural x => x

/-- The texts of terms, unless one of them is missing. -/
def textsOn : List Expression → Option (List String)
  | [] => some []
  | e :: rest =>
    match termOn e, textsOn rest with
    | some x, some texts => some (S.text x :: texts)
    | _, _ => none
termination_by structural x => x

/-- The first term that is there. -/
def firstOn : List Expression → Option RdfTerm
  | [] => none
  | e :: rest => (termOn e).or (firstOn rest)
termination_by structural x => x

end

/-- The comparison of the texts of two terms. -/
def compareOn (D : ValueDomain String) (op : Comparator) : Option RdfTerm → Option RdfTerm → Truth
  | some x, some y => .ofBool (op.holds (D.order (S.text x) (S.text y)))
  | _, _ => .unknown

/-- A test of the text of a term with a constant text. -/
def testOn (test : String → String → Bool) (part : Expression) (x : Option RdfTerm) : Truth :=
  match part.literalText?, x with
  | some text, some x => .ofBool (test text (S.text x))
  | _, _ => .unknown

variable (D : ValueDomain String)

mutual

/-- The truth value of a condition on a solution. -/
def truth : Expression → Truth
  | constant (.literal l) =>
    match l.bool? with
    | some b => .ofBool b
    | none => .unknown
  | and items => .all (truthEach items)
  | or items => .any (truthEach items)
  | not inner => (truth inner).not
  | bound name => .ofBool (a name).isSome
  | compare op l r => compareOn S D op (termOn S a l) (termOn S a r)
  | langMatches v range =>
    testOn S (fun text x => D.langMatches x (Text.lower text)) range (termOn S a v)
  | strStarts v part => testOn S (fun text x => D.like x (likeText text ++ "%")) part (termOn S a v)
  | strEnds v part => testOn S (fun text x => D.like x ("%" ++ likeText text)) part (termOn S a v)
  | contains v part =>
    testOn S (fun text x => D.like x ("%" ++ likeText text ++ "%")) part (termOn S a v)
  | _ => .unknown
termination_by structural x => x

def truthEach : List Expression → List Truth
  | [] => []
  | e :: rest => truth e :: truthEach rest
termination_by structural x => x

end

end

/-- What is asked of expressions for them to mean the same wherever they are computed. -/
structure SteadyEach (S : Rendering) (a : Solution) (es : List Expression) : Prop where
  /-- The texts of IRIs stand for themselves. -/
  iris : ∀ i, constant (.iri i) ∈ es → '%' ∉ i.toList
  /-- A language is asked for where there is a term. -/
  languages : ∀ e, lang e ∈ es → e.termOn S a ≠ none
  /-- An IRI is shown as another term only if the two are equal. -/
  shown : ∀ op l r, compare op l r ∈ es → op = .eq ∨ op = .ne → ∀ x y, l.termOn S a = some x →
    r.termOn S a = some y → S.text x = S.text y →
      x.shape.termType = .iri ∨ y.shape.termType = .iri → x = y
  /-- Terms that are tested with `=` are shown alike only if they are of one kind and language. -/
  kinds : ∀ l r, compare .eq l r ∈ es → ∀ x y, l.termOn S a = some x → r.termOn S a = some y →
    S.text x = S.text y →
      x.shape.termType = y.shape.termType ∧ x.shape.language = y.shape.language

/-- Both sides of every `=` have terms. -/
def Decided (S : Rendering) (a : Solution) (es : List Expression) : Prop :=
  ∀ l r, compare .eq l r ∈ es → l.termOn S a ≠ none ∧ r.termOn S a ≠ none

theorem Decided.mono {S : Rendering} {a : Solution} {es es' : List Expression}
    (h : Decided S a es) (hes : es' ⊆ es) : Decided S a es' :=
  fun l r hlr => h l r (hes hlr)

/-- An expression means the same on a solution wherever it is computed. -/
structure Steady (S : Rendering) (a : Solution) (e : Expression) : Prop where
  parts : SteadyEach S a e.subterms
  negated : Decided S a e.negated

theorem SteadyEach.mono {S : Rendering} {a : Solution} {es es' : List Expression}
    (h : SteadyEach S a es) (hes : es' ⊆ es) : SteadyEach S a es' where
  iris := fun i hi => h.iris i (hes hi)
  languages := fun e he => h.languages e (hes he)
  shown := fun op l r hlr => h.shown op l r (hes hlr)
  kinds := fun l r hlr => h.kinds l r (hes hlr)

/-! ### What an expression depends on -/

section

variable {S : Rendering} {D : ValueDomain String} {a b : Solution}

/-- Two solutions have the same terms for the query variables of expressions. -/
def SameOn (a b : Solution) (es : List Expression) : Prop :=
  ∀ e ∈ es, ∀ name ∈ e.name?, a name = b name

theorem SameOn.mono {es es' : List Expression} (h : SameOn a b es) (hes : es' ⊆ es) :
    SameOn a b es' :=
  fun e he => h e (hes he)

theorem sameOn_iff {e : Expression} :
    SameOn a b e.subterms ↔ ∀ name ∈ e.names, a name = b name := by
  simp only [SameOn, names, List.mem_filterMap, Option.mem_def]
  exact ⟨fun h name ⟨e', he', hname⟩ => h e' he' name hname,
    fun h e' he' name hname => h name ⟨e', he', hname⟩⟩

mutual

theorem termOn_congr : ∀ e : Expression, SameOn a b e.subterms → e.termOn S a = e.termOn S b
  | var _, h => h _ List.mem_cons_self _ rfl
  | constant (.var _), h => h _ List.mem_cons_self _ rfl
  | constant (.iri _), _ => rfl
  | constant (.literal _), _ => rfl
  | lang inner, h => by
    rw [termOn, termOn, termOn_congr inner (h.mono (List.subset_cons_self _ _))]
  | str inner, h => by
    rw [termOn, termOn, termOn_congr inner (h.mono (List.subset_cons_self _ _))]
  | concat items, h => by
    rw [termOn, termOn, (termsOn_congr items (h.mono (List.subset_cons_self _ _))).1]
  | coalesce items, h => (termsOn_congr items (h.mono (List.subset_cons_self _ _))).2
  | and _, _ => rfl
  | or _, _ => rfl
  | not _, _ => rfl
  | bound _, _ => rfl
  | compare _ _ _, _ => rfl
  | langMatches _ _, _ => rfl
  | strStarts _ _, _ => rfl
  | strEnds _ _, _ => rfl
  | contains _ _, _ => rfl

theorem termsOn_congr : ∀ es : List Expression, SameOn a b (subtermsAll es) →
    textsOn S a es = textsOn S b es ∧ firstOn S a es = firstOn S b es
  | [], _ => ⟨rfl, rfl⟩
  | e :: rest, h => by
    have hfirst := termOn_congr e (h.mono (List.subset_append_left _ _))
    obtain ⟨htexts, hrest⟩ := termsOn_congr rest (h.mono (List.subset_append_right _ _))
    rw [textsOn, textsOn, firstOn, firstOn, hfirst, htexts, hrest]
    exact ⟨rfl, rfl⟩

end

theorem termOn_congr_left {l r : Expression} {e : Expression}
    (h : SameOn a b (e :: (l.subterms ++ r.subterms))) : l.termOn S a = l.termOn S b :=
  termOn_congr l (h.mono fun _ hx => List.mem_cons_of_mem _ (List.mem_append_left _ hx))

theorem termOn_congr_right {l r : Expression} {e : Expression}
    (h : SameOn a b (e :: (l.subterms ++ r.subterms))) : r.termOn S a = r.termOn S b :=
  termOn_congr r (h.mono fun _ hx => List.mem_cons_of_mem _ (List.mem_append_right _ hx))

mutual

theorem truth_congr : ∀ e : Expression, SameOn a b e.subterms → e.truth S a D = e.truth S b D
  | constant (.literal _), _ => rfl
  | constant (.var _), _ => rfl
  | constant (.iri _), _ => rfl
  | var _, _ => rfl
  | and items, h =>
    congrArg Truth.all (truthEach_congr items (h.mono (List.subset_cons_self _ _)))
  | or items, h =>
    congrArg Truth.any (truthEach_congr items (h.mono (List.subset_cons_self _ _)))
  | not inner, h => congrArg Truth.not (truth_congr inner (h.mono (List.subset_cons_self _ _)))
  | bound _, h => by rw [truth, truth, h _ List.mem_cons_self _ rfl]
  | compare _ _ _, h => by
    rw [truth, truth, termOn_congr_left h, termOn_congr_right h]
  | langMatches _ _, h => by rw [truth, truth, termOn_congr_left h]
  | strStarts _ _, h => by rw [truth, truth, termOn_congr_left h]
  | strEnds _ _, h => by rw [truth, truth, termOn_congr_left h]
  | contains _ _, h => by rw [truth, truth, termOn_congr_left h]
  | lang _, _ => rfl
  | str _, _ => rfl
  | concat _, _ => rfl
  | coalesce _, _ => rfl

theorem truthEach_congr : ∀ es : List Expression, SameOn a b (subtermsAll es) →
    truthEach S a D es = truthEach S b D es
  | [], _ => rfl
  | e :: rest, h => by
    rw [truthEach, truthEach, truth_congr e (h.mono (List.subset_append_left _ _)),
      truthEach_congr rest (h.mono (List.subset_append_right _ _))]

end

/-- Whether an expression is steady depends on its query variables. -/
theorem Steady.congr {e : Expression} (h : e.Steady S a) (hab : SameOn a b e.subterms) :
    e.Steady S b := by
  have hclosed := closed_subterms e
  have hnegated := negated_subset_subterms e
  have hsides : ∀ {op l r}, compare op l r ∈ e.subterms →
      l.termOn S a = l.termOn S b ∧ r.termOn S a = r.termOn S b := fun hlr =>
    have hsame := hab.mono (hclosed _ hlr)
    ⟨termOn_congr_left hsame, termOn_congr_right hsame⟩
  refine ⟨⟨h.parts.iris, fun e' he' => ?_, fun op l r hlr => ?_, fun l r hlr => ?_⟩,
    fun l r hlr => ?_⟩
  · rw [← termOn_congr e' (hab.mono (List.Subset.trans (List.subset_cons_self _ _)
      (hclosed _ he')))]
    exact h.parts.languages e' he'
  · rw [← (hsides hlr).1, ← (hsides hlr).2]
    exact h.parts.shown op l r hlr
  · rw [← (hsides hlr).1, ← (hsides hlr).2]
    exact h.parts.kinds l r hlr
  · rw [← (hsides (hnegated hlr)).1, ← (hsides (hnegated hlr)).2]
    exact h.negated l r hlr

/-- Neither an IRI nor a language nor a test for equality. -/
def isModest : Expression → Bool
  | constant (.iri _) => false
  | lang _ => false
  | compare .eq _ _ => false
  | compare .ne _ _ => false
  | _ => true

/-- Without IRIs, languages and tests for equality, an expression is steady on every solution. -/
theorem steady_of_isModest {e : Expression} (h : e.subterms.all isModest = true) :
    e.Steady S a := by
  have hparts : ∀ e' ∈ e.subterms, e'.isModest ≠ false := fun e' he' =>
    Bool.ne_false_iff.mpr (List.all_eq_true.mp h e' he')
  refine ⟨⟨fun i hi => absurd rfl (hparts _ hi), fun e' he' => absurd rfl (hparts _ he'), ?_,
    fun l r hlr => absurd rfl (hparts _ hlr)⟩, fun l r hlr => ?_⟩
  · rintro op l r hlr (rfl | rfl)
    · exact absurd rfl (hparts _ hlr)
    · exact absurd rfl (hparts _ hlr)
  · exact absurd rfl (hparts _ (negated_subset_subterms e hlr))

end

end Expression

/-- Values as they are, with expressions as they are on the texts that show terms. -/
def Interpretation.shown (D : ValueDomain String) (S : Rendering) : Interpretation String where
  text _ value := value
  holds e a := e.truth S a D = .yes
  value e a := e.termOn S a

end VirtualGraph
