import VirtualGraph.Proofs.Bound.Rows
import VirtualGraph.Proofs.Draft.Origins
import VirtualGraph.Proofs.Draft.Plan
import VirtualGraph.Proofs.Draft.Shown

/-!
# Expressions in the blocks of a plan

An expression is compiled in a draft that still grows. The rows that a filter is tested on fit the
draft that the block was made from, and so they fit the smaller draft that the filter was compiled
in. The same is true of the pairs that a left join is tested on, whose right halves are rows of the
nested draft. In both cases a column may be null that the block guards, since filters are tested
together; such rows are not in the block.

So what is true of the rows of a draft is true wherever the expressions that were added to it end
up, and it stays true while the draft grows, is nested in another one or becomes a branch of a
union.
-/

namespace VirtualGraph

variable {α : Type}

namespace Draft

open DraftBuilder

variable {S : Reading α} {P : VariableTable → Site → Prop} {t t' T : VariableTable}
variable {d d' inner : Draft} {row : Row α} {exposed : List Variable} {s : Source}
variable {uses uses' : List (Expression × Option String)} {sites sites' : Block → List Site}

theorem guards_of_guarded (h : (d.toBlock exposed).Guarded row) :
    ∀ v ∈ d.tableVars, .notNull v ∈ d.filters → row v ≠ none := by
  intro v hv
  obtain ⟨table, htable, hv⟩ := List.mem_flatMap.mp hv
  exact h table.source table.vars (List.mem_append_left _ (List.mem_map_of_mem htable)) v hv

/-- The pairs that a left join is tested on fit the draft, and their right halves are rows of the
left join. -/
theorem Sound.fits_of_mem_pairRows (h : d.Sound T) {before after : List Source}
    (hsources : (d.toBlock exposed).sources = before ++ s :: after)
    (hrow : row ∈ (d.toBlock exposed).pairRows S.domain S.db T before s)
    (hguards : ∀ v ∈ d.tableVars, .notNull v ∈ d.filters → row v ≠ none) :
    d.Fits S T row ∧ Source.Matched row (s, Block.sourceRows S.domain S.db T s) := by
  have hsep := h.separate exposed S.domain S.db
  have hmem : ∀ r ∈ (d.toBlock exposed).sources, (r, Block.sourceRows S.domain S.db T r) ∈
      Block.sourceRowsEach S.domain S.db T (d.toBlock exposed).sources := fun r hr => by
    rw [Block.sourceRowsEach_eq_map]
    exact List.mem_map_of_mem hr
  have hs : s ∈ (d.toBlock exposed).sources :=
    hsources ▸ List.mem_append_right _ List.mem_cons_self
  obtain ⟨joined, hjoined, hrow⟩ := Multiset.mem_bind.mp hrow
  obtain ⟨crossed, hcrossed, hjoined⟩ := Multiset.mem_bind.mp hjoined
  obtain ⟨pair, hpair, rfl⟩ := Multiset.mem_map.mp hrow
  obtain ⟨r, hr, rfl⟩ := Multiset.mem_map.mp hpair
  -- a left join that is not joined yet has nulls only, so it fits too
  have hfits : ∀ q ∈ Block.sourceRowsEach S.domain S.db T (d.toBlock exposed).sources,
      Source.Fits joined q := by
    refine Source.joinAll_invariant (P := fun row => ∀ q ∈ Block.sourceRowsEach S.domain S.db T
      (d.toBlock exposed).sources, Source.Fits row q) (fun q hq mid hmid row' hrow' => ?_)
      (Source.fits_of_mem_cross hsep hcrossed) joined hjoined
    rw [Block.sourceRowsEach_eq_map] at hq
    obtain ⟨source, hsource, rfl⟩ := List.mem_map.mp hq
    have hsource : source ∈ (d.toBlock exposed).sources :=
      hsources ▸ List.mem_append_left _ hsource
    exact Source.fits_of_mem_outer hsep hmid (hmem source hsource) hrow'
  have hmatched : Source.Matched (joined.take s.produced r)
      (s, Block.sourceRows S.domain S.db T s) := Source.matched_take hr
  refine ⟨h.fits_run exposed (fun q hq => ?_) hguards, ?_⟩
  · exact Source.fits_take hsep hfits (hmem s hs) (.inl hmatched) _ (hmem q hq)
  · obtain ⟨r', hr', hvalues⟩ := hmatched
    refine ⟨r', hr', fun v hv => ?_⟩
    refine (h.assignments.run_eq ?_).trans (hvalues v hv)
    rw [← flatMap_produced_toBlock exposed]
    exact List.mem_flatMap.mpr ⟨s, hs, hv⟩

/-- The sites of a draft are those of given expressions, and they have a property in whatever block
the draft becomes. -/
structure Sited (P : VariableTable → Site → Prop) (t : VariableTable)
    (uses : List (Expression × Option String)) (d : Draft) (sites : Block → List Site) : Prop where
  uses : ∀ b, (sites b).map Site.use = uses
  holds : ∀ T d' exposed, t <+: T → d.Inside d' → d'.Sound T →
    ∀ site ∈ sites (d'.toBlock exposed), site.block.Within (d'.toBlock exposed) ∧ P T site

theorem sited_nil (P : VariableTable → Site → Prop) (t : VariableTable) (d : Draft) :
    Sited P t [] d fun _ => [] :=
  ⟨fun _ => rfl, fun _ _ _ _ _ _ _ hsite => absurd hsite List.not_mem_nil⟩

/-- An expression that stands in the block itself. -/
theorem sited_singleton {use : Expression × Option String} {site : Block → Site}
    (huse : ∀ b, (site b).use = use) (hblock : ∀ b, (site b).block = b)
    (h : ∀ T d' exposed, t <+: T → d.Inside d' → d'.Sound T → P T (site (d'.toBlock exposed))) :
    Sited P t [use] d fun b => [site b] := by
  refine ⟨fun b => congrArg (· :: []) (huse b), fun T d' exposed hT hinside hsound => ?_⟩
  refine List.forall_mem_singleton.mpr ⟨?_, h T d' exposed hT hinside hsound⟩
  rw [hblock]
  exact .self

theorem Sited.mono (h : Sited P t uses d sites) (ht : t <+: t') (hd : d.Inside d') :
    Sited P t' uses d' sites :=
  ⟨h.uses, fun T d'' exposed hT hinside => h.holds T d'' exposed (ht.trans hT)
    (hd.trans hinside)⟩

theorem Sited.append (h : Sited P t uses d sites) (h' : Sited P t uses' d sites') :
    Sited P t (uses ++ uses') d fun b => sites b ++ sites' b := by
  refine ⟨fun b => ?_, fun T d' exposed hT hinside hsound => ?_⟩
  · rw [List.map_append, h.uses, h'.uses]
  · exact List.forall_mem_append.mpr ⟨h.holds T d' exposed hT hinside hsound,
      h'.holds T d' exposed hT hinside hsound⟩

/-- The sites of a nested draft stay as they are when the draft is finished. -/
theorem Sited.nested (h : Sited P t uses inner sites) (ht : t <+: t') (hinside : inner.Inside d')
    (hsound : d'.Sound t') (hs : s ∈ d.sources) (hblock : d'.toBlock exposed ∈ s.blocks) :
    Sited P t' uses d fun _ => sites (d'.toBlock exposed) := by
  refine ⟨fun _ => h.uses _, fun T outer exposed' hT houter _ site hsite => ?_⟩
  obtain ⟨hwithin, hsite⟩ := h.holds T d' exposed (ht.trans hT) hinside (hsound.mono hT) site hsite
  exact ⟨.nested (List.mem_append_right _ (houter.sources hs)) hblock hwithin, hsite⟩

/-- The sites of the right side of a left join, and that of its condition. -/
theorem Sited.leftJoin (h : Sited P t uses inner sites) (ht : t <+: t') {scope : ExpressionScope}
    {origin : Origin} {condition : Option Expression}
    (hblock : ∃ inner' exposed, s.blocks = [inner'.toBlock exposed] ∧ inner'.Sound t' ∧
      inner.Inside inner')
    (hcondition : ∀ e ∈ condition, Sited P t' [(e, none)] (d.addSource s) fun b =>
      [⟨⟨b, e, scope, some s⟩, origin, none⟩]) :
    Sited P t' (uses ++ condition.toList.map fun e => (e, none)) (d.addSource s) fun b =>
      s.blocks.flatMap sites ++ condition.toList.map fun e =>
        ⟨⟨b, e, scope, some s⟩, origin, none⟩ := by
  obtain ⟨inner', exposed, hblocks, hsound, hinside⟩ := hblock
  refine Sited.append ?_ ?_
  · have hs : s ∈ (d.addSource s).sources := List.mem_append_right _ List.mem_cons_self
    have hright := h.nested ht hinside hsound hs
      (hblocks ▸ List.mem_cons_self : inner'.toBlock exposed ∈ s.blocks)
    rwa [hblocks, List.flatMap_singleton]
  · cases condition with
    | none => exact sited_nil P t' (d.addSource s)
    | some e => exact hcondition e rfl

/-- The sites of the branches of a union, each in the block that its draft became. -/
theorem sited_branches {trees : List BoundTree} {surveys : List Survey}
    {branches : List (Draft × List Variable)}
    (hsited : List.Forall₂ (fun tree r => Sited P t tree.uses r.draft r.sites) trees surveys)
    (ht : t <+: t') (hbranches : List.Forall₂ (fun r e => r.draft.Inside e.1) surveys branches)
    (hs : s ∈ d.sources)
    (hblocks : ∀ e ∈ branches, e.1.Sound t' ∧ e.1.toBlock e.2 ∈ s.blocks) :
    Sited P t' (BoundTree.usesAll trees) d fun _ =>
      (surveys.zip branches).flatMap fun e => e.1.sites (e.2.1.toBlock e.2.2) := by
  induction hsited generalizing branches with
  | nil => exact sited_nil P t' d
  | cons hfirst _ ih =>
    cases hbranches with
    | cons hinside hrest =>
      obtain ⟨⟨hsound, hblock⟩, hblocks⟩ := List.forall_mem_cons.mp hblocks
      exact (hfirst.nested ht hinside hsound hs hblock).append (ih hrest hblocks)

end Draft

/-! ### Surveys -/

open DraftBuilder Draft

/-- A property of drafts that every step of a survey keeps, and from which the expressions that are
added have one of theirs. -/
structure Survey.Invariant (C : Candidate → Prop) (I : VariableTable → Draft → Origin → Prop)
    (P : VariableTable → Site → Prop) : Prop where
  empty : ∀ t, I t .empty .nowhere
  mono : ∀ {t t' d o}, t <+: t' → I t d o → I t' d o
  addFilter : ∀ {t d o} c, I t d o → I t (d.addFilter c) o
  addCandidate : ∀ {t d o c}, C c → d.Sound t → I t d o →
    (d.addCandidate c).Builds Fault.Any t fun d' t' =>
      I t' d' (o.either (.triple d'.columns c)) ∧ d.Inside d'
  addUnion : ∀ {t d o index} {surveys : List Survey}, I t d o →
    (∀ r ∈ surveys, r.draft.Sound t ∧ ∀ v ∈ r.draft.vars, index < v) →
    (∀ r ∈ surveys, I t r.draft r.origin) → index < t.length →
    (unionDraft index (surveys.map (·.draft))).Builds Fault.Any t fun u t' =>
      (u.Sound t' index ∧ List.Forall₂ (fun r e => r.draft.Inside e.1) surveys u.branches) ∧
      (bindAll (d.addSource (u.source index)) u.bindings).Builds Fault.Any t' fun d' t'' =>
        I t'' d' (o.either (Survey.united index surveys u.branches)) ∧
          (d.addSource (u.source index)).Inside d'
  addLeftJoin : ∀ {t d inner o o'} names condition, d.Sound t → I t d o → inner.Sound t →
    I t inner o' → (d.leftJoinSource names inner condition).Builds Fault.Any t fun j t' =>
      ((∃ inner' exposed, j.1.blocks = [inner'.toBlock exposed] ∧ inner'.Sound t' ∧
          inner.Inside inner') ∧
        ∀ e ∈ condition, Sited P t' [(e, none)] (d.addSource j.1) fun b =>
          [⟨⟨b, e, j.2.2, some j.1⟩, o.either (.joined j.1 o'), none⟩]) ∧
      (bindOptional names (d.addSource j.1) j.2.1).Builds Fault.Any t' fun d' t'' =>
        I t'' d' (o.either (.joined j.1 o')) ∧ (d.addSource j.1).Inside d'
  restrict : ∀ {t d o c} names e, d.Sound t → I t d o → e.condition (d.scope t names) = .ok c →
    Sited P t [(e, none)] (d.addFilter c) fun b => [⟨⟨b, e, d.scope t names, none⟩, o, none⟩]
  extend : ∀ {t d o} names name e, d.Sound t → I t d o →
    (d.extend names name e).Builds Fault.Any t fun d' t' =>
      (I t' d' (o.either (.computed (d.scope t names) name e o)) ∧ d.Inside d') ∧
        Sited P t' [(e, some name)] d' fun b => [⟨⟨b, e, d.scope t names, none⟩, o, some name⟩]

namespace BoundTree

variable {C : Candidate → Prop} {I : VariableTable → Draft → Origin → Prop}
variable {P : VariableTable → Site → Prop} {t : VariableTable}
variable {uses : List (Expression × Option String)} {r : Survey}

theorem surveyTo_sound (tree : BoundTree) (h : r.draft.Sound t) :
    (tree.surveyTo r).Builds Fault.Any t fun r' t' => r'.draft.Sound t' := by
  have hevolves : r.draft.Evolves Fault.Any t (tree.addTo r.draft) :=
    (addTo_evolves tree h).allow fun _ _ => trivial
  rw [← map_draft_surveyTo] at hevolves
  exact (Builds.of_map hevolves).mono fun _ _ _ hr => hr.1

theorem surveyEach_sound (trees : List BoundTree) (t : VariableTable) :
    (surveyEach trees).Builds Fault.Any t fun surveys t' =>
      ∀ r ∈ surveys, r.draft.Sound t' ∧ ∀ v ∈ r.draft.vars, t.length ≤ v := by
  have hbuilds : (draftEach trees).Builds Fault.Any t fun ds t' =>
      ∀ d ∈ ds, d.Sound t' ∧ ∀ v ∈ d.vars, t.length ≤ v :=
    (draftEach_builds trees t).allow fun _ _ => trivial
  rw [← map_draft_surveyEach] at hbuilds
  exact (Builds.of_map hbuilds).mono fun _ _ _ h => List.forall_mem_map.mp h

/-- A builder of a survey that keeps a property, and whose sites are those of given expressions. -/
def Surveys (I : VariableTable → Draft → Origin → Prop) (P : VariableTable → Site → Prop)
    (t : VariableTable) (uses : List (Expression × Option String)) (d : Draft)
    (x : DraftBuilder Survey) : Prop :=
  x.Builds Fault.Any t fun r t' => r.draft.Sound t' ∧ (I t' r.draft r.origin ∧ d.Inside r.draft) ∧
    Sited P t' uses r.draft r.sites

mutual

theorem surveyTo_keeps (hinv : Survey.Invariant C I P) : ∀ (tree : BoundTree) {t : VariableTable}
    {uses : List (Expression × Option String)} {r : Survey}, (∀ c ∈ tree.candidates, C c) →
    r.draft.Sound t → I t r.draft r.origin → Sited P t uses r.draft r.sites →
    Surveys I P t (uses ++ tree.uses) r.draft (tree.surveyTo r)
  | noMatch, t, uses, r, _, hsound, h, hsites => by
    refine (surveyTo_sound noMatch hsound).and ?_
    rw [surveyTo, BoundTree.uses, List.append_nil]
    have hinside := inside_addFilter r.draft .never
    exact builds_pure ⟨⟨hinv.addFilter _ h, hinside⟩, hsites.mono (List.prefix_refl t) hinside⟩
  | unit, t, uses, r, _, hsound, h, hsites => by
    rw [surveyTo, BoundTree.uses, List.append_nil]
    exact builds_pure ⟨hsound, ⟨h, .refl r.draft⟩, hsites⟩
  | triple c, t, uses, r, hc, hsound, h, hsites => by
    refine (surveyTo_sound (triple c) hsound).and ?_
    rw [surveyTo, BoundTree.uses, List.append_nil]
    refine (hinv.addCandidate (hc c (List.mem_singleton_self c)) hsound h).bind
      fun d' t' ht hd' => ?_
    exact builds_pure ⟨hd', hsites.mono ht hd'.2⟩
  | join members, t, uses, r, hc, hsound, h, hsites => by
    rw [surveyTo]
    exact surveyAllTo_keeps hinv members hc hsound h hsites
  | union branches, t, uses, r, hc, hsound, h, hsites => by
    refine (surveyTo_sound (union branches) hsound).and ?_
    rw [surveyTo]
    refine builds_fresh_bind ?_
    refine ((surveyEach_sound branches _).and (surveyEach_keeps hinv branches hc _)).bind
      fun surveys t₁ ht₁ hsurveys => ?_
    obtain ⟨hdrafts, hkept, hsited⟩ := hsurveys
    have htaken := ht₁.length_le
    rw [List.length_append, List.length_singleton] at hdrafts htaken
    have ht₁ := (List.prefix_append t _).trans ht₁
    refine (hinv.addUnion (hinv.mono ht₁ h) hdrafts hkept htaken).bind fun u t₂ ht₂ hu => ?_
    obtain ⟨⟨hu, hbranches⟩, hbindings⟩ := hu
    refine hbindings.bind fun d' t₃ ht₃ hd' => ?_
    have hinside := (inside_addSource r.draft (u.source t.length)).trans hd'.2
    refine builds_pure ⟨⟨hd'.1, hinside⟩,
      (hsites.mono (ht₁.trans (ht₂.trans ht₃)) hinside).append ?_⟩
    have hs : u.source t.length ∈ d'.sources :=
      hd'.2.sources (List.mem_append_right _ List.mem_cons_self)
    exact sited_branches hsited (ht₂.trans ht₃) hbranches hs fun e he =>
      ⟨(hu.branches e he).sound.mono ht₃, List.mem_map_of_mem he⟩
  | leftJoin left right condition, t, uses, r, hc, hsound, h, hsites => by
    refine (surveyTo_sound (leftJoin left right condition) hsound).and ?_
    rw [surveyTo, BoundTree.uses, ← List.append_assoc]
    obtain ⟨hleft, hright⟩ := List.forall_mem_append.mp hc
    refine (surveyTo_keeps hinv left hleft hsound h hsites).bind fun l t₁ ht₁ hl => ?_
    obtain ⟨hsound₁, ⟨h₁, hinside₁⟩, hsites₁⟩ := hl
    refine (surveyTo_keeps hinv right (r := .empty) hright sound_empty (hinv.empty t₁)
      (sited_nil P t₁ .empty)).bind fun nested t₂ ht₂ hnested => ?_
    obtain ⟨hsound₂, ⟨h₂, -⟩, hsites₂⟩ := hnested
    -- the sites of the right side stay in its own block, those of the left side move along
    refine (hinv.addLeftJoin left.variables condition (hsound₁.mono ht₂) (hinv.mono ht₂ h₁) hsound₂
      h₂).bind fun j t₃ ht₃ hj => ?_
    obtain ⟨⟨hblock, hcondition⟩, hbindings⟩ := hj
    refine hbindings.bind fun d' t₄ ht₄ hd' => ?_
    have hkept := (inside_addSource _ _).trans hd'.2
    refine builds_pure ⟨⟨hd'.1, hinside₁.trans hkept⟩, ?_⟩
    exact (hsites₁.mono (ht₂.trans (ht₃.trans ht₄)) hkept).append
      ((hsites₂.leftJoin ht₃ hblock hcondition).mono ht₄ hd'.2)
  | filter condition inner, t, uses, r, hc, hsound, h, hsites => by
    refine (surveyTo_sound (filter condition inner) hsound).and ?_
    rw [surveyTo, BoundTree.uses, ← List.append_assoc]
    refine (surveyTo_keeps hinv inner hc hsound h hsites).bind fun r' t' ht hr' => ?_
    obtain ⟨hsound', ⟨h', hinside⟩, hsites'⟩ := hr'
    refine builds_get_bind ?_
    have hrestrict : (r'.draft.restrict inner.variables condition).Builds Fault.Any t' fun d' t'' =>
        (I t'' d' r'.origin ∧ r'.draft.Inside d') ∧ Sited P t'' [(condition, none)] d' fun b =>
          [⟨⟨b, condition, r'.draft.scope t' inner.variables, none⟩, r'.origin, none⟩] :=
      builds_get_bind <| builds_lift_bind (Result.meets_any _).and_eq_ok fun c hc =>
        builds_pure ⟨⟨hinv.addFilter c h', inside_addFilter _ c⟩,
          hinv.restrict _ condition hsound' h' hc.1⟩
    refine hrestrict.bind fun d' t'' ht' hd' => ?_
    obtain ⟨⟨h'', hinside'⟩, hsite⟩ := hd'
    exact builds_pure ⟨⟨h'', hinside.trans hinside'⟩, (hsites'.mono ht' hinside').append hsite⟩
  | extend inner name value, t, uses, r, hc, hsound, h, hsites => by
    refine (surveyTo_sound (extend inner name value) hsound).and ?_
    rw [surveyTo, BoundTree.uses, ← List.append_assoc]
    refine (surveyTo_keeps hinv inner hc hsound h hsites).bind fun r' t' ht hr' => ?_
    obtain ⟨hsound', ⟨h', hinside⟩, hsites'⟩ := hr'
    refine builds_get_bind ?_
    refine (hinv.extend inner.variables name value hsound' h').bind fun d' t'' ht' hd' => ?_
    obtain ⟨⟨h'', hinside'⟩, hsite⟩ := hd'
    exact builds_pure ⟨⟨h'', hinside.trans hinside'⟩, (hsites'.mono ht' hinside').append hsite⟩

theorem surveyAllTo_keeps (hinv : Survey.Invariant C I P) : ∀ (trees : List BoundTree)
    {t : VariableTable} {uses : List (Expression × Option String)} {r : Survey},
    (∀ c ∈ candidatesAll trees, C c) → r.draft.Sound t → I t r.draft r.origin →
    Sited P t uses r.draft r.sites →
    Surveys I P t (uses ++ usesAll trees) r.draft (surveyAllTo r trees)
  | [], t, uses, r, _, hsound, h, hsites => by
    rw [surveyAllTo, usesAll, List.append_nil]
    exact builds_pure ⟨hsound, ⟨h, .refl r.draft⟩, hsites⟩
  | tree :: rest, t, uses, r, hc, hsound, h, hsites => by
    rw [surveyAllTo, usesAll, ← List.append_assoc]
    obtain ⟨hfirst, hrest⟩ := List.forall_mem_append.mp hc
    refine (surveyTo_keeps hinv tree hfirst hsound h hsites).bind fun r' t' ht hr' => ?_
    obtain ⟨hsound', ⟨h', hinside⟩, hsites'⟩ := hr'
    refine (surveyAllTo_keeps hinv rest hrest hsound' h' hsites').mono fun r'' t'' ht' hr'' => ?_
    obtain ⟨hsound'', ⟨h'', hinside'⟩, hsites''⟩ := hr''
    exact ⟨hsound'', ⟨h'', hinside.trans hinside'⟩, hsites''⟩

theorem surveyEach_keeps (hinv : Survey.Invariant C I P) : ∀ (trees : List BoundTree),
    (∀ c ∈ candidatesAll trees, C c) → ∀ t : VariableTable,
    (surveyEach trees).Builds Fault.Any t fun surveys t' =>
      (∀ r ∈ surveys, I t' r.draft r.origin) ∧
        List.Forall₂ (fun tree r => Sited P t' tree.uses r.draft r.sites) trees surveys
  | [], _, t => by
    rw [surveyEach]
    exact builds_pure ⟨fun _ hr => absurd hr List.not_mem_nil, .nil⟩
  | tree :: rest, hc, t => by
    rw [surveyEach]
    obtain ⟨hfirst, hrest⟩ := List.forall_mem_append.mp hc
    refine (surveyTo_keeps hinv tree (r := .empty) hfirst sound_empty (hinv.empty t)
      (sited_nil P t .empty)).bind fun r t' ht hr => ?_
    obtain ⟨-, ⟨h, -⟩, hsites⟩ := hr
    refine (surveyEach_keeps hinv rest hrest t').bind fun rs t'' ht' hrs => ?_
    exact builds_pure ⟨List.forall_mem_cons.mpr ⟨hinv.mono ht' h, hrs.1⟩,
      .cons (hsites.mono ht' (.refl r.draft)) hrs.2⟩

end

/-- What a survey keeps is true of its draft at the end, and the expressions of the tree have their
property in the blocks of the plan. -/
theorem survey_keeps (hinv : Survey.Invariant C I P) (tree : BoundTree)
    (hc : ∀ c ∈ tree.candidates, C c) (projection : List String)
    {Q : Block → VariableTable → List (String × Variable) → Prop}
    (hproject : ∀ t d o, d.Sound t → I t d o → (d.project projection).Builds Fault.Any t fun q t' =>
      d.Inside q.1 ∧ Q (q.1.toBlock (q.2.map (·.2))) t' q.2) :
    (tree.survey projection).Meets Fault.Any fun r =>
      Q r.1.block r.1.table r.1.outputs ∧ r.2.map Site.use = tree.uses ∧
      ∀ site ∈ r.2, site.block.Within r.1.block ∧ P r.1.table site := by
  have hbuild : DraftBuilder.Builds Fault.Any [] (fun r t =>
      Q r.1 t r.2.1 ∧ r.2.2.map Site.use = tree.uses ∧
        ∀ site ∈ r.2.2, site.block.Within r.1 ∧ P t site) (do
        let r ← tree.surveyTo .empty
        let q ← r.draft.project projection
        return (q.1.toBlock (q.2.map (·.2)), q.2, r.sites (q.1.toBlock (q.2.map (·.2))))) := by
    refine (surveyTo_keeps hinv tree (r := .empty) hc sound_empty (hinv.empty [])
      (sited_nil P [] .empty)).bind fun r t _ hr => ?_
    obtain ⟨hsound, ⟨h, -⟩, hsites⟩ := hr
    refine ((project_builds hsound).of_excluded.and (hproject t r.draft r.origin hsound h)).bind
      fun q t' ht hq => builds_pure ?_
    obtain ⟨⟨⟨hsound', -⟩, -⟩, hinside, hq⟩ := hq
    exact ⟨hq, hsites.uses _, hsites.holds t' q.1 _ ht hinside hsound'⟩
  exact Result.Meets.bind hbuild fun r hr => hr.2

/-- What is true of the survey of a tree that has a plan. -/
theorem exists_survey {tree : BoundTree} {projection : List String} {p : Plan}
    (hp : tree.plan projection = .ok p) {post : Plan × List Site → Prop}
    (h : (tree.survey projection).Meets Fault.Any post) :
    ∃ sites, tree.survey projection = .ok (p, sites) ∧ post (p, sites) := by
  have hfirst := map_fst_survey tree projection
  rw [hp] at hfirst
  cases hsurvey : tree.survey projection with
  | error f =>
    rw [hsurvey] at hfirst
    cases hfirst
  | ok r =>
    rw [hsurvey] at hfirst h
    cases hfirst
    exact ⟨r.2, rfl, h⟩

end BoundTree

end VirtualGraph
