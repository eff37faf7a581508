import VirtualGraph.Proofs.Draft.Accounts
import VirtualGraph.Proofs.Draft.Nullability

/-!
# The language of a row's term

The language of a query variable is a constant where all its terms have the same, and otherwise a
case over the variables that hold the branches of unions. On the rows that an expression is computed
on it is the language of the term that the account of the row gives the query variable, whatever
unions and left joins the term went through. Where the query variable is null the language is null
only if the row comes from a branch that does not bind it, or from none: a constant is never null.
-/

namespace VirtualGraph

variable {α : Type}

/-- The value of a query variable in a scope, and its language, on a row. -/
def ExpressionScope.TellsLanguage (D : ValueDomain α) (s : ExpressionScope) (row : Row α)
    (name : String) (given : α → TermShape → Prop) (language : Scalar) : Prop :=
  ∃ v, s.variableValue name = .ok v ∧
    (∀ a, v.scalar.eval D row = some a →
      ∃ k, given a k ∧ language.eval D row = some (D.constant k.tag .string)) ∧
    (v.scalar.eval D row = none → (language.eval D row = none ↔ v.shape.Says D row none))

/-- The language of a query variable is that of its term, if its binding tells the term. -/
theorem Expression.lang_tells {D : ValueDomain α} (hD : D.TellsNumbers) {s : ExpressionScope}
    {row : Row α} {given : String → α → TermShape → Prop}
    (hs : ∀ e ∈ s.bindings, e.2.Tells D s.columns row (given e.1)) {name : String}
    {language : Computed} (h : (lang (var name)).value s = .ok language) :
    s.TellsLanguage D row name (given name) language.scalar := by
  obtain ⟨v, hv, h⟩ := Result.bind_eq_ok.mp h
  have htells := variableValue_tells hs name
  rw [show s.variableValue name = .ok v from hv] at htells
  obtain ⟨said, hsaid, hvalue⟩ := htells
  refine ⟨v, hv, ?_⟩
  cases hx : v.shape.language? with
  | none =>
    rw [hx] at h
    cases h
  | some x =>
    rw [hx] at h
    cases h
    have heval : x.eval D row = said.map fun k => D.constant k.tag .string :=
      hsaid.eval_language hD hx
    refine ⟨fun a ha => ?_, fun _ => ⟨fun hnull => ?_, fun hnone => hnone.eval_language hD hx⟩⟩
    · obtain ⟨k, rfl, hk⟩ := hvalue a ha
      exact ⟨k, hk, heval⟩
    · obtain rfl : said = none := Option.map_eq_none_iff.mp (heval.symm.trans hnull)
      exact hsaid

namespace Site

/-- The expression stands in its block, as a condition or as a value. -/
def Placed (site : Site) : Prop :=
  match site.bound? with
  | none => site.toTest.Placed
  | some _ => site.expression.Assigned site.scope site.block.assignments

/-- On the rows that the expression is computed on, unless a guarded column is null, languages are
those of the terms of the row. -/
def TellsLanguages (D : ValueDomain α) (db : Database α) (t : VariableTable) (site : Site) : Prop :=
  ∀ row, site.Sees D db t row → site.block.Guarded row → ∀ name language,
    (Expression.lang (.var name)).value site.scope = .ok language →
    site.scope.TellsLanguage D row name (site.origin.account D db t row name) language.scalar

end Site

namespace Draft

open DraftBuilder

variable {S : Reading α} {t t' T : VariableTable} {d inner : Draft} {e : Expression} {s : Source}
variable {o o' : Origin}

/-- The bindings of a draft tell the terms that come from given origins. -/
abbrev AccountedBy (S : Reading α) (t : VariableTable) (d : Draft) (o : Origin) : Prop :=
  d.Accounted S t (o.account S.domain S.db)

/-- The expression stands in its block, and languages are those of terms. -/
abbrev SpeaksOf (S : Reading α) (T : VariableTable) (site : Site) : Prop :=
  site.Placed ∧ site.TellsLanguages S.domain S.db T

/-- What is computed on the rows of a block is computed on rows that fit the draft of its scope. -/
theorem Accounted.sited {d' : Draft} (h : d.AccountedBy S t o) (ht : t <+: t') (hd : d.Inside d')
    (names : List String) {bound? : Option String}
    (hplaced : ∀ d'' exposed, d'.Inside d'' → Site.Placed
      ⟨⟨d''.toBlock exposed, e, d.scope t names, none⟩, o, bound?⟩) :
    Sited (SpeaksOf S) t' [(e, bound?)] d' fun b =>
      [⟨⟨b, e, d.scope t names, none⟩, o, bound?⟩] := by
  refine sited_singleton (fun _ => rfl) (fun _ => rfl) fun T d'' exposed hT hinside hsound => ?_
  refine ⟨hplaced d'' exposed hinside, fun row hrow hguarded name language hlanguage => ?_⟩
  have hfits : d''.Fits S T row :=
    hsound.fits_of_mem_candidateRows hrow (guards_of_guarded hguarded)
  have hscope := h.scope (ht.trans hT) names (hfits.inside (hd.trans hinside))
  exact Expression.lang_tells S.tells hscope hlanguage

/-- A value that is bound to a query variable is computed on the rows of its block. -/
theorem extend_sited (h : d.AccountedBy S t o) (names : List String) (name : String)
    (e : Expression) : (d.extend names name e).Builds Fault.Any t fun d' t' =>
      (d'.AccountedBy S t' (o.either (.computed (d.scope t names) name e o)) ∧ d.Inside d') ∧
        Sited (SpeaksOf S) t' [(e, some name)] d' fun b =>
          [⟨⟨b, e, d.scope t names, none⟩, o, some name⟩] := by
  refine (extend_explains h names name e).mono fun d' t' ht hd' => ?_
  obtain ⟨hkept, hassigned⟩ := hd'
  refine ⟨hkept, h.sited ht hkept.2 names fun d'' exposed hinside => ?_⟩
  obtain hcopied | ⟨v, hv, hnull | ⟨target, htarget⟩⟩ := hassigned
  · exact .inl hcopied
  · exact .inr ⟨v, hv, .inl hnull⟩
  · exact .inr ⟨v, hv, .inr ⟨target, hinside.assignments htarget⟩⟩

/-- The condition of a left join is tested on rows whose right half is a row of the left join. -/
theorem Nests.sited {bindings : Bindings} {scope : ExpressionScope}
    (h : Nests S t inner (o'.account S.domain S.db) s bindings) (hd : d.AccountedBy S t o)
    {names : List String} (hcolumns : scope.columns = d.columns)
    (hbindings : scope.bindings = d.bindings.restrict names ++ bindings) {on : List Condition}
    (hon : s.on? = some on) {c : Condition} (hc : e.condition scope = .ok c) (hmem : c ∈ on) :
    Sited (SpeaksOf S) t [(e, none)] (d.addSource s) fun b =>
      [⟨⟨b, e, scope, some s⟩, o.either (.joined s o'), none⟩] := by
  refine sited_singleton (fun _ => rfl) (fun _ => rfl) fun T d' exposed hT hinside hsound => ?_
  have hs : s ∈ (d'.toBlock exposed).sources :=
    List.mem_append_right _ (hinside.sources (List.mem_append_right _ List.mem_cons_self))
  refine ⟨⟨c, hc, hs, on, hon, hmem⟩, ?_⟩
  rintro row ⟨before, after, hsources, hrow⟩ hguarded name language hlanguage
  obtain ⟨hfits, hmatched⟩ :=
    hsound.fits_of_mem_pairRows hsources hrow (guards_of_guarded hguarded)
  have hinner := hfits.inside ((inside_addSource d s).trans hinside)
  refine Expression.lang_tells S.tells ?_ hlanguage
  rw [hbindings, hcolumns, List.forall_mem_append]
  refine ⟨fun e he => ?_, fun e he => ?_⟩
  · exact (hd e (List.mem_filter.mp he).1 T hT row hinner).mono fun _ _ => .inl
  · exact (h.tells_of_matched he hT hmatched d.columns).mono fun _ _ => .inr

/-- The right side of a left join with its condition. -/
theorem leftJoinSource_sited (hd : d.AccountedBy S t o) (hsound : inner.Sound t)
    (h : inner.AccountedBy S t o') (names : List String) (condition : Option Expression) :
    (d.leftJoinSource names inner condition).Builds Fault.Any t fun j t' =>
      ((∃ inner' exposed, j.1.blocks = [inner'.toBlock exposed] ∧ inner'.Sound t' ∧
          inner.Inside inner') ∧
        ∀ e ∈ condition, Sited (SpeaksOf S) t' [(e, none)] (d.addSource j.1) fun b =>
          [⟨⟨b, e, j.2.2, some j.1⟩, o.either (.joined j.1 o'), none⟩]) ∧
      (bindOptional names (d.addSource j.1) j.2.1).Builds Fault.Any t' fun d' t'' =>
        d'.AccountedBy S t'' (o.either (.joined j.1 o')) ∧ (d.addSource j.1).Inside d' := by
  refine (leftJoinSource_nests hsound h names condition).mono fun j t' ht hj => ?_
  obtain ⟨hnests, hcolumns, hbindings, on, hon, hcondition⟩ := hj
  refine ⟨⟨?_, fun e he => ?_⟩, ?_⟩
  · obtain ⟨inner', exposed, ⟨on', heq⟩, hsound', hinside, -⟩ := hnests.block
    exact ⟨inner', exposed, heq ▸ rfl, hsound', hinside⟩
  · obtain ⟨c, hmem, hc⟩ := hcondition e he
    exact hnests.sited (hd.mono ht) hcolumns hbindings hon hc hmem
  · have haccounted : (d.addSource j.1).AccountedBy S t' (o.either (.joined j.1 o')) :=
      ((hd.mono ht).addSource j.1).account_mono fun _ _ _ _ _ => .inl
    refine (bindOptional_explains names haccounted fun e he => ?_).mono
      fun d' t'' _ hd' => ⟨hd'.1, hd'.2.1⟩
    exact (hnests.tells_padded he).account_mono fun _ _ _ _ => .inr

/-- A union of drafts whose rows are accounted for. -/
theorem unionDraft_accounted {index : Variable} {surveys : List Survey} (h : d.AccountedBy S t o)
    (hdrafts : ∀ r ∈ surveys, r.draft.Sound t ∧ ∀ v ∈ r.draft.vars, index < v)
    (haccounted : ∀ r ∈ surveys, r.draft.AccountedBy S t r.origin) (htaken : index < t.length) :
    (unionDraft index (surveys.map (·.draft))).Builds Fault.Any t fun u t' =>
      (u.Sound t' index ∧ List.Forall₂ (fun r e => r.draft.Inside e.1) surveys u.branches) ∧
      (bindAll (d.addSource (u.source index)) u.bindings).Builds Fault.Any t' fun d' t'' =>
        d'.AccountedBy S t'' (o.either (Survey.united index surveys u.branches)) ∧
          (d.addSource (u.source index)).Inside d' := by
  have hsound := UnionDraft.sound_ofDrafts (List.forall_mem_map.mpr hdrafts)
  refine ((UnionDraft.addNames_builds hsound htaken).of_excluded.and
    (UnionDraft.addNames_outputs (UnionDraft.outputs_ofDrafts _) hsound htaken)).mono
      fun u t' ht hu => ?_
  obtain ⟨husound, houtputs⟩ := hu
  refine ⟨⟨husound, (List.forall₂_map_left_iff.mp houtputs.branches).imp fun _ _ h => h.inside⟩, ?_⟩
  have hbindings : (d.addSource (u.source index)).Explains S t'
      ((o.either (Survey.united index surveys u.branches)).account S.domain S.db)
      (bindAll (d.addSource (u.source index)) u.bindings) :=
    houtputs.explains husound ((h.mono ht).account_mono fun _ _ _ _ _ => .inl)
      (fun r hr => (haccounted r hr).mono ht) fun _ _ _ _ _ => .inr
  exact hbindings.mono fun d' t'' _ hd' => ⟨hd'.1, hd'.2.1⟩

/-- Rows stay accounted for, and the languages in scope follow them. -/
theorem accounted_invariant (S : Reading α) :
    Survey.Invariant (fun _ => True) (AccountedBy S) (SpeaksOf S) where
  empty _ := accounted_empty
  mono ht h := h.mono ht
  addFilter c h := h.addFilter c
  addCandidate _ hsound h := (addCandidate_accounted h hsound _).mono fun _ _ _ hd' => hd'.symm
  addUnion h hdrafts haccounted htaken := unionDraft_accounted h hdrafts haccounted htaken
  addLeftJoin names condition _ h hinner haccounted :=
    leftJoinSource_sited h hinner haccounted names condition
  restrict names _ _ h hc := h.sited (List.prefix_refl _) (inside_addFilter _ _) names
    fun _ _ hinside => ⟨_, hc, hinside.filters (List.mem_append_right _ List.mem_cons_self)⟩
  extend names name e _ h := extend_sited h names name e

theorem project_inside {names : List String} :
    (d.project names).Builds Fault.Any t fun r _ => d.Inside r.1 := by
  induction names generalizing d t with
  | nil => exact builds_pure (.refl d)
  | cons name names ih =>
    have hstep : ∀ (x : Scalar) (info : VariableInfo),
        DraftBuilder.Builds Fault.Any t (fun r _ => d.Inside r.1) (do
          let v ← freshVariable info
          let r ← project (d.assign v x) names
          return (r.1, (name, v) :: r.2)) :=
      fun x info => builds_fresh_bind (ih.bind fun r _ _ hr =>
        builds_pure ((inside_assign d _ x).trans hr))
    rw [project]
    refine builds_get_bind ?_
    dsimp only
    split
    · exact builds_lift_bind (Result.meets_any _) fun x _ => hstep x _
    · exact hstep .null _

end Draft

namespace BoundTree

open Draft

/-- The language of a query variable follows the row. Every expression of a filter or left join, and
every value that is bound to a query variable, stands in one of the blocks of the plan. On the rows
that it is computed on, as far as no column is null that the block has a filter against, the
language of a query variable that has a value is the one that the term map of a triple of the row
has, in lower case and empty if there is none, through all unions and left joins. Where the query
variable has no value, its language is null exactly on the rows of branches that do not bind it and
on rows of no branch. -/
theorem plan_languages (t : BoundTree) {D : ValueDomain α} (hD : D.TellsNumbers) (db : Database α)
    {projection : List String} {p : Plan} (hp : t.plan projection = .ok p) :
    ∃ sites, t.survey projection = .ok (p, sites) ∧ sites.map (·.expression) = t.expressions ∧
      ∀ site ∈ sites, site.block.Within p.block ∧ site.Placed ∧
        site.TellsLanguages D db p.table := by
  let S : Reading α := ⟨D, hD, db, [], fun _ hr => absurd hr List.not_mem_nil,
    fun _ hr => absurd hr List.not_mem_nil⟩
  obtain ⟨sites, hsurvey, -, huses, hsites⟩ := exists_survey hp <|
    survey_keeps (accounted_invariant S) t (fun _ _ => trivial) projection
      (Q := fun _ _ _ => True) fun _ _ _ _ _ => project_inside.mono fun _ _ _ h => ⟨h, trivial⟩
  refine ⟨sites, hsurvey, ?_, hsites⟩
  rw [expressions, ← huses, List.map_map]
  rfl

/-- Nicknames are in two languages, each in a branch of its own. Someone without a nickname has no
language. -/
theorem plan_languages_nicknames :
    let people : LogicalTable :=
      ⟨.table "people", [⟨"id", .integer, false⟩, ⟨"name", .string, false⟩,
      ⟨"nick", .string, true⟩, ⟨"ruf", .string, true⟩]⟩
    let map : TriplesMap := ⟨0, "people", people,
      ⟨.template "http://x/{id}" [.text "http://x/", .column "id"], .iri, none, none⟩,
      [⟨[.ofIri "http://x/name"], [.term ⟨.column "name", .literal, none, none⟩]⟩,
        ⟨[.ofIri "http://x/nick"], [.term ⟨.column "nick", .literal, none, some "EN"⟩,
          .term ⟨.column "ruf", .literal, none, some "de"⟩]⟩]⟩
    let names : GraphPattern := .triple ⟨.var "s", .iri "http://x/name", .var "n"⟩
    let nicks : GraphPattern := .triple ⟨.var "s", .iri "http://x/nick", .var "x"⟩
    let t := (bind ⟨[map]⟩ 0 (.extend (.leftJoin names nicks none) "l" (.lang (.var "x")))).1
    let db : Database String := .ofRecords fun _ => [[("id", "1"), ("name", "a"), ("nick", "b")],
      [("id", "2"), ("name", "c"), ("ruf", "d")], [("id", "3"), ("name", "e")]]
    ∃ p, t.plan ["x", "l"] = .ok p ∧
      p.answers .texts db = {[("x", some "b"), ("l", some "en")],
        [("x", some "d"), ("l", some "de")], [("x", none), ("l", none)]} ∧
      ∃ sites, t.survey ["x", "l"] = .ok (p, sites) ∧
        sites.map (·.expression) = [.lang (.var "x")] ∧
        ∀ site ∈ sites, site.block.Within p.block ∧ site.Placed ∧
          site.TellsLanguages .texts db p.table := by
  intro people map names nicks t db
  have hcomputed : (t.plan ["x", "l"]).toOption.map (fun p => p.answers .texts db) =
      some {[("x", some "b"), ("l", some "en")], [("x", some "d"), ("l", some "de")],
        [("x", none), ("l", none)]} := by
    decide +kernel
  obtain ⟨p, hp, hanswers⟩ := Option.map_eq_some_iff.mp hcomputed
  have hp := Result.eq_ok_of_toOption hp
  exact ⟨p, hp, hanswers, plan_languages t ValueDomain.textual_texts.tellsNumbers db hp⟩

/-- Where all nicknames are in one language, someone without a nickname has that language too. -/
theorem lang_of_unbound :
    let people : LogicalTable :=
      ⟨.table "people", [⟨"id", .integer, false⟩, ⟨"name", .string, false⟩,
      ⟨"nick", .string, true⟩]⟩
    let name : TermMap := ⟨.column "name", .literal, none, none⟩
    let nick : TermMap := ⟨.column "nick", .literal, none, some "EN"⟩
    let map : TriplesMap := ⟨0, "people", people,
      ⟨.template "http://x/{id}" [.text "http://x/", .column "id"], .iri, none, none⟩,
      [⟨[.ofIri "http://x/name"], [.term name]⟩, ⟨[.ofIri "http://x/nick"], [.term nick]⟩]⟩
    let names : BoundTree := .triple
      ⟨⟨.var "s", .iri "http://x/name", .var "n"⟩, map, 0, .ofIri "http://x/name", .term name⟩
    let nicks : BoundTree := .triple
      ⟨⟨.var "s", .iri "http://x/nick", .var "x"⟩, map, 1, .ofIri "http://x/nick", .term nick⟩
    let t : BoundTree := .extend (.leftJoin names nicks none) "l" (.lang (.var "x"))
    let db : Database String := .ofRecords fun _ => [[("id", "1"), ("name", "a"), ("nick", "b")],
      [("id", "2"), ("name", "c")]]
    ∃ p, t.plan ["x", "l"] = .ok p ∧ p.answers .texts db =
      {[("x", some "b"), ("l", some "en")], [("x", none), ("l", some "en")]} := by
  intro people name nick map names nicks t db
  have hcomputed : (t.plan ["x", "l"]).toOption.map (fun p => p.answers .texts db) =
      some {[("x", some "b"), ("l", some "en")], [("x", none), ("l", some "en")]} := by
    decide +kernel
  obtain ⟨p, hp, hanswers⟩ := Option.map_eq_some_iff.mp hcomputed
  exact ⟨p, Result.eq_ok_of_toOption hp, hanswers⟩

end BoundTree

end VirtualGraph
