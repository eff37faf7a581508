import VirtualGraph.Proofs.Draft.Patterns
import VirtualGraph.Proofs.Draft.Sites

/-!
# Plans are right about nulls

What is said about nulls while a plan is built is true of its rows: of its outputs, and in every
scope in which an expression is compiled. So a test whether a query variable is bound, which becomes
a condition on what may be null, is true on exactly the rows on which the query variable has a
value.
-/

namespace VirtualGraph

variable {α : Type}

/-- If the expression is a condition, its tests whether query variables are bound are exact. -/
def Site.TestsNulls (S : Reading α) (T : VariableTable) (site : Site) : Prop :=
  site.bound? = none → site.toTest.Placed ∧ site.toTest.Exact S.domain S.db T

namespace Draft

open DraftBuilder

variable {S : Reading α} {t t' T : VariableTable} {d inner : Draft} {e : Expression} {s : Source}
variable {scope : ExpressionScope} {c : Condition}

/-- A filter is tested on the rows of its block. -/
theorem Valued.restrict (h : d.Valued S t) (hsound : d.Sound t) (names : List String)
    (hc : e.condition (d.scope t names) = .ok c) (o : Origin) :
    Sited (Site.TestsNulls S) t [(e, none)] (d.addFilter c) fun b =>
      [⟨⟨b, e, d.scope t names, none⟩, o, none⟩] := by
  refine sited_singleton (fun _ => rfl) (fun _ => rfl) fun T d' exposed hT hinside hsound' _ => ?_
  refine ⟨⟨c, hc, hinside.filters (List.mem_append_right _ List.mem_cons_self)⟩, ?_⟩
  intro row hrow hguarded name
  have hfits : d'.Fits S T row :=
    hsound'.fits_of_mem_candidateRows hrow (guards_of_guarded hguarded)
  have hinner := hfits.inside ((inside_addFilter d c).trans hinside)
  exact Expression.bound_iff (hsound.scope t names) (h.scope t names T hT row hinner) name

/-- What the condition of a left join can see is right about nulls, on rows whose right half is a
row of the left join. -/
structure JoinScope (S : Reading α) (t : VariableTable) (d : Draft) (s : Source)
    (scope : ExpressionScope) : Prop where
  inScope : ∃ vs, scope.InScope vs
  present : ∀ T, t <+: T → ∀ row, d.Fits S T row →
    Source.Matched row (s, Block.sourceRows S.domain S.db T s) → scope.Present S.domain row

theorem JoinScope.sited (h : JoinScope S t d s scope) {on : List Condition} (hon : s.on? = some on)
    (hc : e.condition scope = .ok c) (hmem : c ∈ on) (o : Origin) :
    Sited (Site.TestsNulls S) t [(e, none)] (d.addSource s) fun b =>
      [⟨⟨b, e, scope, some s⟩, o, none⟩] := by
  refine sited_singleton (fun _ => rfl) (fun _ => rfl) fun T d' exposed hT hinside hsound _ => ?_
  have hs : s ∈ (d'.toBlock exposed).sources :=
    List.mem_append_right _ (hinside.sources (List.mem_append_right _ List.mem_cons_self))
  refine ⟨⟨c, hc, hs, on, hon, hmem⟩, ?_⟩
  rintro row ⟨before, after, hsources, hrow⟩ hguarded name
  obtain ⟨hfits, hmatched⟩ :=
    hsound.fits_of_mem_pairRows hsources hrow (guards_of_guarded hguarded)
  obtain ⟨vs, hscope⟩ := h.inScope
  have hinner := hfits.inside ((inside_addSource d s).trans hinside)
  exact Expression.bound_iff hscope (h.present T hT row hinner hmatched) name

/-- What is known of a left join with a nested draft once it is made. -/
structure Joined (S : Reading α) (t : VariableTable) (d inner : Draft)
    (condition : Option Expression) (s : Source) (scope : ExpressionScope) : Prop where
  sees : JoinScope S t d s scope
  block : ∃ inner' exposed, s.blocks = [inner'.toBlock exposed] ∧ inner'.Sound t ∧
    inner.Inside inner'
  condition : ∃ on, s.on? = some on ∧ ∀ e ∈ condition, ∃ c ∈ on, e.condition scope = .ok c

theorem leftJoinSource_builds (hsound : d.Sound t) (h : d.Valued S t) (hinner : inner.Sound t)
    (hvalued : inner.Valued S t) (names : List String) (condition : Option Expression) :
    (d.leftJoinSource names inner condition).Builds Fault.Any t fun r t' =>
      Joined S t' d inner condition r.1 r.2.2 := by
  have hexposed := exposeAll_builds hinner (List.nil_subset _) List.nodup_nil hinner.bindings
  refine (hexposed.of_excluded.and (exposeAll_builds_valued hvalued hvalued.bindings)).bind
    fun r t' ht hr => ?_
  obtain ⟨inner', exposed, bindings⟩ := r
  obtain ⟨⟨⟨hinner', -⟩, -, hbindings⟩, ⟨-, hinside⟩, hpresent⟩ := hr
  refine builds_lift_bind (Result.meets_any _) fun shared _ => builds_get_bind ?_
  have hscoped : ∀ on : List Condition, JoinScope S t' d
      (.leftJoin (inner'.toBlock exposed) on exposed)
      { d.scope t' names with bindings := (d.scope t' names).bindings ++ bindings } := by
    refine fun on => ⟨⟨_, hsound.joinScope t' names hbindings⟩, fun T hT row hrow hmatched => ?_⟩
    have hleft := h.scope t' names T (ht.trans hT) row hrow
    refine ⟨hleft.columns, List.forall_mem_append.mpr ⟨hleft.bindings, fun e he => ?_⟩⟩
    obtain ⟨r, hr, hvalues⟩ := hmatched
    have hshows := ((hinner'.mono hT).shows_of_mem_rows hr).congr hvalues
    exact (hpresent e he).present_of_shows hT (hbindings e he) hshows
  have hblock : ∀ on : List Condition, ∃ d' exposed',
      (Source.leftJoin (inner'.toBlock exposed) on exposed).blocks = [d'.toBlock exposed'] ∧
        d'.Sound t' ∧ inner.Inside d' :=
    fun _ => ⟨inner', exposed, rfl, hinner', hinside⟩
  cases condition with
  | none => exact builds_pure ⟨hscoped _, hblock _, _, rfl, fun _ he => by cases he⟩
  | some e =>
    refine builds_lift_bind (Result.meets_any _).and_eq_ok fun c hc => builds_pure ?_
    refine ⟨hscoped _, hblock _, _, rfl, fun e' he' => ?_⟩
    cases he'
    exact ⟨c, List.mem_append_right _ List.mem_cons_self, hc.1⟩

/-- A union of drafts that are right about nulls. -/
theorem unionDraft_valued {index : Variable} {surveys : List Survey} (h : d.Valued S t)
    (hdrafts : ∀ r ∈ surveys, r.draft.Sound t ∧ ∀ v ∈ r.draft.vars, index < v)
    (hvalued : ∀ r ∈ surveys, r.draft.Valued S t) (htaken : index < t.length) :
    (unionDraft index (surveys.map (·.draft))).Builds Fault.Any t fun u t' =>
      (u.Sound t' index ∧ List.Forall₂ (fun r e => r.draft.Inside e.1) surveys u.branches) ∧
        (d.addSource (u.source index)).Upholds S t'
          (bindAll (d.addSource (u.source index)) u.bindings) := by
  have hsound := UnionDraft.sound_ofDrafts (List.forall_mem_map.mpr hdrafts)
  have hstart : UnionDraft.Valued S t index ⟨(surveys.map (·.draft)).map (·, []), [], []⟩ :=
    UnionDraft.valued_ofDrafts (List.forall_mem_map.mpr hvalued)
  refine ((UnionDraft.addNames_builds hsound htaken).of_excluded.and
    (UnionDraft.addNames_builds_valued hstart)).mono fun u t' ht hu => ?_
  obtain ⟨husound, huvalued, hwidens⟩ := hu
  rw [List.map_map, List.forall₂_map_left_iff] at hwidens
  exact ⟨⟨husound, hwidens.imp fun _ _ h => h.1⟩, bindUnion_upholds (h.mono ht) husound huvalued⟩

/-- Drafts stay right about nulls, and tests are exact. -/
theorem valued_invariant (S : Reading α) : Survey.Invariant (fun c => c.rows ⊆ S.rows)
    (fun t d _ => d.Valued S t) (Site.TestsNulls S) where
  empty _ := valued_empty
  mono ht h := h.mono ht
  addFilter c h := h.addFilter c
  addCandidate hc _ h := addCandidate_upholds h hc
  addUnion h hdrafts hvalued htaken := unionDraft_valued h hdrafts hvalued htaken
  addLeftJoin names condition hsound h hinner hvalued := by
    refine (leftJoinSource_builds hsound h hinner hvalued names condition).mono
      fun j t' ht hj => ⟨⟨hj.block, fun e he => ?_⟩,
        bindOptional_upholds names ((h.mono ht).addSource j.1)⟩
    obtain ⟨on, hon, hcondition⟩ := hj.condition
    obtain ⟨c, hmem, hc⟩ := hcondition e he
    exact hj.sees.sited hon hc hmem _
  restrict names e hsound h hc := h.restrict hsound names hc _
  extend names name e _ h := by
    refine (extend_upholds h names name e).mono fun d' t' _ hd' => ⟨hd', ?_⟩
    -- a value that is bound to a query variable is no test
    exact sited_singleton (fun _ => rfl) (fun _ => rfl) fun _ _ _ _ _ _ hnone => by cases hnone

end Draft

/-- The tests among expressions are those that are not bound to query variables. -/
theorem Site.map_expression_tests (sites : List Site) : (tests sites).map (·.expression) =
    ((sites.map use).filter (·.2.isNone)).map (·.1) := by
  rw [tests, List.filter_map, List.map_map, List.map_map]
  rfl

namespace BoundTree

open DraftBuilder Draft

/-- Outputs that are said not to be null are not null, and all tests are exact. -/
theorem survey_nulls (S : Reading α) (tree : BoundTree)
    (hc : ∀ c ∈ tree.candidates, c.rows ⊆ S.rows) (projection : List String) :
    (tree.survey projection).Meets Fault.Any fun r =>
      (∀ row ∈ r.1.block.rows S.domain S.db r.1.table, ∀ o ∈ r.1.outputs,
        (r.1.table.info o.2).nullable = false → row o.2 ≠ none) ∧
      r.2.map Site.use = tree.uses ∧
      ∀ site ∈ r.2, site.block.Within r.1.block ∧ site.TestsNulls S r.1.table := by
  refine survey_keeps (valued_invariant S) tree hc projection (Q := fun block table outputs =>
    ∀ row ∈ block.rows S.domain S.db table, ∀ o ∈ outputs, (table.info o.2).nullable = false →
      row o.2 ≠ none) fun t d _ hsound hvalued => ?_
  refine ((project_builds hsound).of_excluded.and (project_builds_valued hvalued)).mono
    fun q t' _ hq => ?_
  obtain ⟨⟨⟨hsound', -⟩, -⟩, ⟨-, hinside⟩, houtputs⟩ := hq
  refine ⟨hinside, fun row hrow o ho hnullable => ?_⟩
  obtain ⟨inner, hinner, hexposed⟩ := hsound'.shows_of_mem_rows hrow
  rw [hexposed o.2 (List.mem_map_of_mem ho)]
  exact houtputs o ho hnullable t' (List.prefix_refl t') inner hinner

end BoundTree

/-! ### Loaded mappings -/

/-- No column is null that a table of the mapping declares not to be null. -/
def Mapping.RespectedBy (db : Database α) (m : Mapping) : Prop :=
  ∀ map ∈ m.triplesMaps, ∀ columns ∈ db map.table.source, ∀ name,
    map.table.isNullable name = false → columns name ≠ none

namespace BoundTree

/-- A row number stands for a row of one table. -/
theorem row_eq_of_mem_bindAll {m : Mapping} {ps : List GraphPattern} {n : Nat} {c c' : Candidate}
    (hc : c ∈ candidatesAll (bindAll m n ps).1) (hc' : c' ∈ candidatesAll (bindAll m n ps).1)
    {r r' : Nat × LogicalTable} (hr : r ∈ c.rows) (hr' : r' ∈ c'.rows) (hnumber : r.1 = r'.1) :
    r = r' := by
  by_cases heq : c = c'
  · subst heq
    exact List.inj_on_of_nodup_map c.nodup_rows hr hr' hnumber
  · have : Std.Symm fun x y : Candidate => x.rowNumbers.Disjoint y.rowNumbers :=
      ⟨fun _ _ h => h.symm⟩
    have hdisjoint := (numbered_bindAll m ps n).apart.forall hc hc' heq
    exact absurd (hnumber ▸ List.mem_map_of_mem hr') (hdisjoint (List.mem_map_of_mem hr))

/-- The rows that patterns bound to a loaded mapping read from a database. -/
def reading {ds : List TriplesMapDefinition} {m : Mapping}
    (hload : Mapping.ofDefinitions ds = .ok m) {D : ValueDomain α} (hD : D.TellsNumbers)
    {db : Database α} (hdb : m.RespectedBy db) (ps : List GraphPattern) (n : Nat) : Reading α where
  domain := D
  tells := hD
  db := db
  rows := (candidatesAll (bindAll m n ps).1).flatMap Candidate.rows
  single := fun r hr r' hr' hnumber => by
    obtain ⟨c, hc, hr⟩ := List.mem_flatMap.mp hr
    obtain ⟨c', hc', hr'⟩ := List.mem_flatMap.mp hr'
    exact row_eq_of_mem_bindAll hc hc' hr hr' hnumber
  keeps := fun r hr => by
    obtain ⟨c, hc, hr⟩ := List.mem_flatMap.mp hr
    obtain ⟨map, hmap, heq⟩ :=
      (over_bindAll (Mapping.numbered_of_load hload) ps n hc).tables r hr
    rw [heq]
    exact hdb map hmap

/-- What a plan says about nulls is right. An output that is not marked as nullable is null in no
row. Every expression of a filter or left join has its condition in one of the blocks of the plan,
and a test whether a query variable is bound is there true on exactly the rows on which the binding
in scope has a value, as far as no column is null that the block has a filter against. -/
theorem plan_nullability {ds : List TriplesMapDefinition} {m : Mapping}
    (hload : Mapping.ofDefinitions ds = .ok m) {D : ValueDomain α} (hD : D.TellsNumbers)
    {db : Database α} (hdb : m.RespectedBy db) (ps : List GraphPattern) (n : Nat) {t : BoundTree}
    (hbound : t.candidates ⊆ candidatesAll (bindAll m n ps).1) {projection : List String} {p : Plan}
    (hp : t.plan projection = .ok p) :
    (∀ row ∈ p.block.rows D db p.table, ∀ o ∈ p.outputs, (p.table.info o.2).nullable = false →
      row o.2 ≠ none) ∧
    ∃ tests, t.trace projection = .ok (p, tests) ∧ tests.map (·.expression) = t.conditions ∧
      ∀ test ∈ tests, test.block.Within p.block ∧ test.Placed ∧ test.Exact D db p.table := by
  have hnulls := survey_nulls (reading hload hD hdb ps n) t (fun c hc r hr =>
    List.mem_flatMap.mpr ⟨c, hbound hc, hr⟩) projection
  obtain ⟨sites, hsurvey, houtputs, huses, hsites⟩ := exists_survey hp hnulls
  refine ⟨houtputs, Site.tests sites, ?_, ?_, fun test htest => ?_⟩
  · rw [trace, hsurvey]
    rfl
  · rw [Site.map_expression_tests, huses]
    rfl
  · obtain ⟨site, hsite, rfl⟩ := List.mem_map.mp htest
    obtain ⟨hsite, hnone⟩ := List.mem_filter.mp hsite
    obtain ⟨hwithin, htests⟩ := hsites site hsite
    exact ⟨hwithin, htests (Option.isNone_iff_eq_none.mp hnone)⟩

/-- Everyone with a name or a mail address, with the mail address where there is a name. Those
without a name come from the second branch of the union only, and `n` is null for them. -/
theorem plan_nullability_mails :
    let people : LogicalTable :=
      ⟨.table "people", [⟨"id", .integer, false⟩, ⟨"name", .string, true⟩, ⟨"mail", .string, true⟩]⟩
    let map : TriplesMap := ⟨0, "people", people,
      ⟨.template "http://x/{id}" [.text "http://x/", .column "id"], .iri, none, none⟩,
      [⟨[.ofIri "http://x/name"], [.term ⟨.column "name", .literal, none, none⟩]⟩,
        ⟨[.ofIri "http://x/mail"], [.term ⟨.column "mail", .literal, none, none⟩]⟩]⟩
    let ds : List TriplesMapDefinition := [⟨"people", ⟨some "people", none, people.columns⟩,
      ⟨none, none, some "http://x/{id}", none, none, none⟩, [],
      [⟨["http://x/name"], [], [], [.term ⟨none, some "name", none, none, none, none⟩]⟩,
        ⟨["http://x/mail"], [], [], [.term ⟨none, some "mail", none, none, none, none⟩]⟩]⟩]
    let names : GraphPattern := .triple ⟨.var "s", .iri "http://x/name", .var "n"⟩
    let mails (name : String) : GraphPattern := .triple ⟨.var "s", .iri "http://x/mail", .var name⟩
    let pattern : GraphPattern := .filter (.bound "s")
      (.leftJoin (.union [names, mails "x"]) (mails "m") (some (.bound "n")))
    let t := (bind ⟨[map]⟩ 0 pattern).1
    let db : Database String := .ofRecords fun _ =>
      [[("id", "1"), ("name", "ann"), ("mail", "a@x")], [("id", "2"), ("mail", "b@x")]]
    Mapping.ofDefinitions ds = .ok ⟨[map]⟩ ∧ Mapping.RespectedBy db ⟨[map]⟩ ∧
      ∃ p, t.plan ["s", "n", "m"] = .ok p ∧
        p.outputs.map (fun o => (p.table.info o.2).nullable) = [false, true, true] ∧
        p.answers .texts db = {[("s", some "http://x/1"), ("n", some "ann"), ("m", some "a@x")],
          [("s", some "http://x/1"), ("n", none), ("m", none)],
          [("s", some "http://x/2"), ("n", none), ("m", none)]} ∧
        (∀ row ∈ p.block.rows .texts db p.table, ∀ o ∈ p.outputs,
          (p.table.info o.2).nullable = false → row o.2 ≠ none) ∧
        ∃ tests, t.trace ["s", "n", "m"] = .ok (p, tests) ∧
          tests.map (·.expression) = [.bound "n", .bound "s"] ∧
          ∀ test ∈ tests, test.block.Within p.block ∧ test.Placed ∧
            test.Exact .texts db p.table := by
  intro people map ds names mails pattern t db
  have hload : Mapping.ofDefinitions ds = .ok ⟨[map]⟩ :=
    Result.eq_ok_of_toOption (by decide +kernel)
  have hdb : Mapping.RespectedBy db ⟨[map]⟩ :=
    List.forall_mem_singleton.mpr (LogicalTable.keepsNulls_ofRecords (by decide))
  have hbound : t.candidates ⊆ candidatesAll (bindAll ⟨[map]⟩ 0 [pattern]).1 :=
    List.subset_append_left _ _
  have hcomputed : (t.plan ["s", "n", "m"]).toOption.map (fun p =>
      (p.outputs.map (fun o => (p.table.info o.2).nullable), p.answers .texts db)) =
        some ([false, true, true],
          {[("s", some "http://x/1"), ("n", some "ann"), ("m", some "a@x")],
          [("s", some "http://x/1"), ("n", none), ("m", none)],
          [("s", some "http://x/2"), ("n", none), ("m", none)]}) := by
    decide +kernel
  obtain ⟨p, hp, hcomputed⟩ := Option.map_eq_some_iff.mp hcomputed
  obtain ⟨hnullable, hanswers⟩ := Prod.mk.inj hcomputed
  have hp := Result.eq_ok_of_toOption hp
  exact ⟨hload, hdb, p, hp, hnullable, hanswers,
    plan_nullability hload ValueDomain.textual_texts.tellsNumbers hdb [pattern] 0 hbound hp⟩

end BoundTree

end VirtualGraph
