import VirtualGraph.Proofs.Draft.Accounts
import VirtualGraph.Proofs.Draft.Sources

/-!
# Query variables that drafts bind

A draft keeps all query variables that it binds, whatever is added to it. A tree adds the query
variables of its triples, in every place where they stand. An extension need not add its own, since
an expression without a value is not bound.
-/

namespace VirtualGraph

namespace Draft

open DraftBuilder

variable {t : VariableTable} {d d' d'' : Draft} {name : String} {names names' : List String}

/-- A draft turns into another that binds given query variables and all that were bound before. -/
def Binds (d : Draft) (names : List String) (d' : Draft) : Prop :=
  ∀ x, x ∈ names ∨ (d.bindings.lookup x).isSome → (d'.bindings.lookup x).isSome

theorem binds_of_bindings (h : d'.bindings = d.bindings) : d.Binds [] d' := fun _ hx =>
  h ▸ hx.resolve_left List.not_mem_nil

theorem Binds.trans (h : d.Binds names d') (h' : d'.Binds names' d'') :
    d.Binds (names ++ names') d'' := by
  rintro x (hx | hx)
  · obtain hx | hx := List.mem_append.mp hx
    · exact h' x (.inr (h x (.inl hx)))
    · exact h' x (.inl hx)
  · exact h' x (.inr (h x (.inr hx)))

theorem Binds.mono (h : d.Binds names d') (hnames : names' ⊆ names) : d.Binds names' d' :=
  fun x hx => h x (hx.imp_left fun hx => hnames hx)

theorem binds_setBinding {b : Binding} (h : d'.bindings = d.bindings) :
    d.Binds [name] (d'.setBinding name b) := by
  intro x hx
  show ((Bindings.insert name b d'.bindings).lookup x).isSome
  rw [Bindings.lookup_insert, h]
  split
  · rfl
  · rename_i hne
    exact hx.resolve_left fun hmem => hne (List.mem_singleton.mp hmem)

theorem merge_bindings (d : Draft) (existing new : Binding) :
    (d.merge existing new).Builds Fault.Any t fun r _ => r.1.bindings = d.bindings := by
  unfold merge
  split
  · exact builds_pure rfl
  · split
    · exact builds_pure rfl
    · exact builds_get_bind <| builds_lift_bind (Result.meets_any _) fun _ _ =>
        builds_lift_bind (Result.meets_any _) fun _ _ => builds_fresh_bind <| builds_pure rfl

theorem bind_binds (d : Draft) (name : String) (b : Binding) :
    (d.bind name b).Builds Fault.Any t fun d' _ => d.Binds [name] d' := by
  unfold bind
  split
  · exact builds_pure (binds_setBinding rfl)
  · rename_i existing _
    exact builds_lift_bind (Result.meets_any _) fun c _ =>
      (merge_bindings (d.addFilter c) existing b).bind fun _ _ _ hr =>
        builds_pure (binds_setBinding hr)

theorem bindAll_binds (bs : Bindings) :
    (bindAll d bs).Builds Fault.Any t fun d' _ => d.Binds (bs.map (·.1)) d' := by
  induction bs generalizing d t with
  | nil => exact builds_pure (binds_of_bindings rfl)
  | cons e bs ih =>
    exact (bind_binds d e.1 e.2).bind fun _ _ _ hd' => ih.mono fun _ _ _ hd'' => hd'.trans hd''

theorem bindAgreed_binds (names : List String) (d : Draft) (name : String) (b : Binding) :
    (d.bindAgreed names name b).Builds Fault.Any t fun d' _ => d.Binds [name] d' := by
  unfold bindAgreed
  split
  · exact (merge_bindings d _ b).bind fun _ _ _ hr => builds_pure (binds_setBinding hr)
  · exact bind_binds d name b

theorem bindOptional_binds (names : List String) (bs : Bindings) :
    (bindOptional names d bs).Builds Fault.Any t fun d' _ => d.Binds (bs.map (·.1)) d' := by
  induction bs generalizing d t with
  | nil => exact builds_pure (binds_of_bindings rfl)
  | cons e bs ih =>
    rw [bindOptional_cons]
    exact (bindAgreed_binds names d e.1 e.2.padded).bind fun _ _ _ hd' =>
      ih.mono fun _ _ _ hd'' => hd'.trans hd''

/-! ### Candidates -/

theorem addTerms_binds (c : Candidate) (places : List Position) :
    (addTerms c d places).Builds Fault.Any t fun d' _ =>
      d.Binds (places.filterMap fun p => (c.queryTerm p).varName?) d' := by
  induction places generalizing d t with
  | nil => exact builds_pure (binds_of_bindings rfl)
  | cons place places ih =>
    rw [addTerms]
    split
    · rename_i name hname
      refine (bind_binds d name (.term (c.term place))).bind fun d' _ _ hd' =>
        ih.mono fun d'' _ _ hd'' => ?_
      rw [List.filterMap_cons, hname]
      exact hd'.trans hd''
    · rename_i hconstant
      -- A constant adds at most a filter, and binds nothing.
      have hnone : (c.queryTerm place).varName? = none := by
        cases hterm : c.queryTerm place with
        | var name => exact absurd hterm (hconstant name)
        | iri i => rfl
        | literal l => rfl
      have hskip : ∀ {d' : Draft}, d'.bindings = d.bindings →
          (addTerms c d' places).Builds Fault.Any t fun d'' _ =>
            d.Binds ((place :: places).filterMap fun p => (c.queryTerm p).varName?) d'' := by
        intro d' hd'
        rw [List.filterMap_cons, hnone]
        exact ih.mono fun _ _ _ hd'' => (binds_of_bindings hd').trans hd''
      split
      · exact builds_lift_bind (Result.meets_any _) fun _ _ => hskip rfl
      · exact hskip rfl

theorem addCandidate_binds (d : Draft) (c : Candidate) :
    (d.addCandidate c).Builds Fault.Any t fun d' _ => d.Binds c.pattern.variables d' := by
  unfold addCandidate
  refine addColumns_widens.bind fun d₁ _ _ hd₁ => ?_
  refine builds_lift_bind addJoins_widens fun d₂ hd₂ => ?_
  have hwidens := (widens_addRows c.rows).trans (hd₁.trans hd₂)
  exact (addTerms_binds c Position.all).mono fun d' _ _ hd' =>
    (binds_of_bindings hwidens.bindings).trans hd'

/-! ### Nested drafts -/

theorem exposeAll_names {nested : Draft} {exposed : List Variable} (bs : Bindings) :
    (exposeAll nested exposed bs).Builds Fault.Any t fun r _ =>
      r.2.2.map (·.1) = bs.map (·.1) := by
  induction bs generalizing nested exposed t with
  | nil => exact builds_pure rfl
  | cons e bs ih =>
    exact builds_get_bind <| builds_lift_bind (Result.meets_any _) fun _ _ => builds_fresh_bind <|
      ih.bind fun _ _ _ hr => builds_pure (congrArg (List.cons e.1) hr)

theorem addLeftJoin_binds {nested : Draft} (names : List String) (condition : Option Expression) :
    (d.addLeftJoin names nested condition).Builds Fault.Any t fun d' _ =>
      d.Binds (nested.bindings.map (·.1)) d' := by
  refine (exposeAll_names nested.bindings).bind fun r _ _ hr => ?_
  have hstep : ∀ {t on}, (bindOptional names (d.addSource (.leftJoin (r.1.toBlock r.2.1) on r.2.1))
      r.2.2).Builds Fault.Any t fun d' _ => d.Binds (nested.bindings.map (·.1)) d' := fun {t on} =>
    hr ▸ (bindOptional_binds names r.2.2).mono fun _ _ _ hd' => hd'
  refine builds_lift_bind (Result.meets_any _) fun shared _ => builds_get_bind ?_
  cases condition with
  | none => exact hstep
  | some e => exact builds_lift_bind (Result.meets_any _) fun c _ => hstep

theorem addNames_names (index : Variable) (u : UnionDraft) (names : List String) :
    (UnionDraft.addNames index u names).Builds Fault.Any t fun u' _ =>
      u'.bindings.map (·.1) = u.bindings.map (·.1) ++ names := by
  induction names generalizing u t with
  | nil => exact builds_pure (List.append_nil _).symm
  | cons name names ih =>
    have hname : (u.addName index name).Builds Fault.Any t fun u' _ =>
        u'.bindings.map (·.1) = u.bindings.map (·.1) ++ [name] :=
      builds_get_bind <| builds_fresh_bind <| builds_lift_bind (Result.meets_any _) fun _ _ =>
        builds_pure List.map_append
    refine hname.bind fun u' _ _ hu' => (ih u').mono fun u'' _ _ hu'' => ?_
    rw [hu'', hu', List.append_assoc]
    rfl

theorem addUnion_binds (d : Draft) (index : Variable) (drafts : List Draft) :
    (d.addUnion index drafts).Builds Fault.Any t fun d' _ =>
      d.Binds (drafts.flatMap fun b => b.bindings.map (·.1)) d' := by
  rw [addUnion_eq]
  refine (addNames_names index _ _).bind fun u _ _ hu => ?_
  refine (bindAll_binds u.bindings).mono fun d' _ _ hd' => Binds.mono hd' fun x hx => ?_
  rw [hu]
  exact mem_sortNames.mpr hx

/-! ### Filters and extensions -/

theorem restrict_binds (d : Draft) (names : List String) (e : Expression) :
    (d.restrict names e).Builds Fault.Any t fun d' _ => d.Binds [] d' :=
  builds_get_bind <| builds_lift_bind (Result.meets_any _) fun _ _ =>
    builds_pure (binds_of_bindings rfl)

theorem extend_binds (d : Draft) (names : List String) (name : String) (e : Expression) :
    (d.extend names name e).Builds Fault.Any t fun d' _ => d.Binds [] d' := by
  have hbind : ∀ {t} (d' : Draft) (b : Binding), d'.bindings = d.bindings →
      (d'.bind name b).Builds Fault.Any t fun d'' _ => d.Binds [] d'' := fun d' b hd' =>
    (bind_binds d' name b).mono fun _ _ _ hd'' =>
      ((binds_of_bindings hd').trans hd'').mono (List.nil_subset _)
  unfold extend
  refine builds_get_bind ?_
  simp only
  split
  · exact builds_throw trivial
  · split
    · exact hbind d _ rfl
    · refine builds_lift_bind (Result.meets_any _) fun v _ => ?_
      split
      · exact builds_pure (binds_of_bindings rfl)
      · exact builds_fresh_bind (hbind _ _ rfl)

theorem Binds.mem_names (h : empty.Binds names d) : names ⊆ d.bindings.map (·.1) := by
  intro x hx
  obtain ⟨b, hb⟩ := Option.isSome_iff_exists.mp (h x (.inl hx))
  exact List.mem_map_of_mem (mem_of_lookup hb)

end Draft

namespace BoundTree

open DraftBuilder Draft

mutual

/-- The query variables of the triples of a tree. -/
def tripleNames : BoundTree → List String
  | noMatch => []
  | unit => []
  | triple c => c.pattern.variables
  | join members => tripleNamesAll members
  | union branches => tripleNamesAll branches
  | leftJoin left right _ => tripleNames left ++ tripleNames right
  | filter _ inner => tripleNames inner
  | extend inner _ _ => tripleNames inner

def tripleNamesAll : List BoundTree → List String
  | [] => []
  | t :: rest => tripleNames t ++ tripleNamesAll rest

end

mutual

/-- Adding a tree to a draft binds the query variables of its triples. -/
theorem addTo_binds : ∀ (tree : BoundTree) (d : Draft) (t : VariableTable),
    (tree.addTo d).Builds Fault.Any t fun d' _ => d.Binds tree.tripleNames d'
  | noMatch, _, _ => builds_pure (binds_of_bindings rfl)
  | unit, _, _ => builds_pure (binds_of_bindings rfl)
  | triple c, d, _ => addCandidate_binds d c
  | join members, d, t => addAllTo_binds members d t
  | union branches, d, _ => builds_fresh_bind <| (draftEach_binds branches _).bind
    fun drafts _ _ hdrafts => (addUnion_binds d _ drafts).mono fun _ _ _ hd' => hd'.mono hdrafts
  | leftJoin left right condition, d, t =>
    (addTo_binds left d t).bind fun _ t₁ _ hd₁ =>
      (addTo_binds right .empty t₁).bind fun _ _ _ hnested =>
        (addLeftJoin_binds left.variables condition).mono fun _ _ _ hd₂ =>
          hd₁.trans (hd₂.mono hnested.mem_names)
  | filter e inner, d, t => (addTo_binds inner d t).bind fun d' _ _ hd' =>
    (restrict_binds d' _ e).mono fun _ _ _ hd'' =>
      (hd'.trans hd'').mono (List.subset_append_left _ _)
  | extend inner name value, d, t => (addTo_binds inner d t).bind fun d' _ _ hd' =>
    (extend_binds d' _ name value).mono fun _ _ _ hd'' =>
      (hd'.trans hd'').mono (List.subset_append_left _ _)

theorem addAllTo_binds : ∀ (trees : List BoundTree) (d : Draft) (t : VariableTable),
    (addAllTo d trees).Builds Fault.Any t fun d' _ => d.Binds (tripleNamesAll trees) d'
  | [], _, _ => builds_pure (binds_of_bindings rfl)
  | tree :: rest, d, t => (addTo_binds tree d t).bind fun d' t' _ hd' =>
    (addAllTo_binds rest d' t').mono fun _ _ _ hd'' => hd'.trans hd''

theorem draftEach_binds : ∀ (trees : List BoundTree) (t : VariableTable),
    (draftEach trees).Builds Fault.Any t fun drafts _ =>
      tripleNamesAll trees ⊆ drafts.flatMap fun b => b.bindings.map (·.1)
  | [], _ => builds_pure (List.Subset.refl _)
  | tree :: rest, t => (addTo_binds tree .empty t).bind fun _ t' _ hd =>
    (draftEach_binds rest t').bind fun _ _ _ hds =>
      builds_pure (append_subset_append hd.mem_names hds)

end

end BoundTree

end VirtualGraph
