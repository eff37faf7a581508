import VirtualGraph.Draft.Build
import VirtualGraph.Proofs.Draft.Steps

/-!
# Drafts of bound trees

Unions and left joins put drafts of their own into a draft. What a nested draft exposes are fresh
variables for its query variables, and the variables that the shapes of their terms depend on;
these may come from any depth, and every level on the way exposes them again. Each tree therefore
becomes a sound draft, or has an expression that cannot be compiled.
-/

namespace VirtualGraph

section AddVariables

variable {vs ws : List Variable} {v : Variable}

theorem mem_addVariables : v ∈ addVariables vs ws ↔ v ∈ vs ∨ v ∈ ws := by
  induction ws generalizing vs with
  | nil => simp [addVariables]
  | cons w ws ih =>
    rw [addVariables]
    split
    · rename_i hw
      have hw := List.contains_iff_mem.mp hw
      rw [ih, List.mem_cons]
      constructor
      · exact fun h => h.imp id .inr
      · rintro (h | rfl | h)
        · exact .inl h
        · exact .inl hw
        · exact .inr h
    · rw [ih, List.mem_append, List.mem_singleton, List.mem_cons, or_assoc]

theorem nodup_addVariables (h : vs.Nodup) : (addVariables vs ws).Nodup := by
  induction ws generalizing vs with
  | nil => exact h
  | cons w ws ih =>
    rw [addVariables]
    split
    · exact ih h
    · rename_i hw
      refine ih (h.append (List.nodup_singleton w) (List.disjoint_singleton.mpr ?_))
      exact fun hmem => hw (List.contains_iff_mem.mpr hmem)

end AddVariables

/-- The binding where it may be null because of a left join. -/
def Binding.padded : Binding → Binding
  | .value v shape _ escaped => .value v shape true escaped
  | .term t => .term t

theorem Binding.InScope.padded {b : Binding} {columns : ColumnIndex} {vs : List Variable}
    (h : b.InScope columns vs) : b.padded.InScope columns vs := by
  cases b <;> exact h

namespace Draft

open DraftBuilder

variable {t t₀ : VariableTable} {d nested : Draft} {allowed : Fault → Prop}

/-- A source whose variables were taken after the draft, from `t₀` on. -/
theorem Sound.addLater (h : d.Sound t₀) (ht₀ : t₀ <+: t) {s : Source} (hs : s.Scoped)
    (hnew : ∀ v ∈ s.produced, t₀.length ≤ v ∧ v < t.length) (honce : s.produced.Nodup)
    (htable : ∀ source vs, s ≠ .table source vs)
    (hbelow : ∀ b ∈ s.blocks, b.Everywhere (Block.Regular t))
    (hon : ∀ on ∈ s.on?, Condition.referencedAll on ⊆ d.vars ++ s.produced) :
    (d.addSource s).Sound t ∧ d.Grows t₀ (d.addSource s) := by
  refine ⟨(h.mono ht₀).addSource hs (fun v hv => ⟨?_, (hnew v hv).2⟩) honce htable hbelow hon, ?_⟩
  · exact fun hmem => Nat.not_lt_of_le (hnew v hv).1 (h.taken v hmem)
  · exact grows_addSource d fun v hv => (hnew v hv).1

/-! ### Left joins -/

/-- Query variables of a nested draft are exposed with all that their bindings read. -/
theorem exposeAll_builds {exposed : List Variable} {bs : Bindings} (h : nested.Sound t)
    (hexposed : exposed ⊆ nested.vars) (honce : exposed.Nodup)
    (hbs : ∀ e ∈ bs, e.2.InScope nested.columns nested.vars) :
    (exposeAll nested exposed bs).Builds Fault.Excluded t fun r t' =>
      (r.1.Sound t' ∧ nested.Grows t r.1) ∧ (r.2.1 ⊆ r.1.vars ∧ r.2.1.Nodup ∧ exposed ⊆ r.2.1) ∧
        ∀ e ∈ r.2.2, e.2.InScope [] r.2.1 := by
  induction bs generalizing nested exposed t with
  | nil =>
    exact builds_pure ⟨⟨h, .refl t nested⟩, ⟨hexposed, honce, List.Subset.refl _⟩,
      fun _ he => absurd he List.not_mem_nil⟩
  | cons e bs ih =>
    obtain ⟨name, b⟩ := e
    rw [List.forall_mem_cons] at hbs
    refine builds_get_bind <| builds_lift_bind (Binding.toScalar_meets h.within hbs.1) fun x hx =>
      builds_fresh_bind ?_
    have hgrows : nested.Grows t (nested.assign t.length x) := grows_assign nested x (Nat.le_refl _)
    have hsound := (h.mono (List.prefix_append t [⟨.derived, b.type t, b.nullable⟩])).assign h.fresh
      (by simp) hx
    have houtput : (exposed ++ [t.length]).Nodup :=
      honce.append (List.nodup_singleton _)
        (List.disjoint_singleton.mpr fun hmem => h.fresh (hexposed hmem))
    have hsub : addVariables (exposed ++ [t.length]) b.shape.indices ⊆
        (nested.assign t.length x).vars := by
      intro v hv
      rw [vars_assign]
      obtain hv | hv := mem_addVariables.mp hv
      · exact append_subset_append hexposed (List.Subset.refl _) hv
      · exact List.mem_append_left _ (hbs.1.indices hv)
    refine (ih hsound hsub (nodup_addVariables houtput) fun e he =>
      hgrows.inScope (hbs.2 e he)).bind fun r t' ht hr => ?_
    obtain ⟨nested', exposed', bindings⟩ := r
    obtain ⟨⟨hsound', hgrows'⟩, ⟨hsub', honce', hkept⟩, hbindings⟩ := hr
    refine builds_pure ⟨⟨hsound', hgrows.trans (List.prefix_append t _) hgrows'⟩,
      ⟨hsub', honce', ?_⟩, ?_⟩
    · exact fun v hv => hkept (mem_addVariables.mpr (.inl (List.mem_append_left _ hv)))
    · refine List.forall_mem_cons.mpr ⟨⟨?_, ?_⟩, hbindings⟩
      · exact hkept (mem_addVariables.mpr (.inl (List.mem_append_right _ List.mem_cons_self)))
      · exact fun v hv => hkept (mem_addVariables.mpr (.inr hv))

theorem sharedConditions_meets {vs : List Variable} (hcolumns : d.columns.Within vs)
    (hd : ∀ e ∈ d.bindings, e.2.InScope d.columns vs) (names : List String) {bs : Bindings}
    (hbs : ∀ e ∈ bs, e.2.InScope d.columns vs) :
    (sharedConditions d names bs).Meets Fault.Excluded
      fun cs => Condition.referencedAll cs ⊆ vs := by
  induction bs with
  | nil => exact List.nil_subset vs
  | cons e bs ih =>
    obtain ⟨name, b⟩ := e
    rw [List.forall_mem_cons] at hbs
    rw [sharedConditions]
    split
    · rename_i left _ hleft
      refine (Binding.equality_meets hcolumns (hd _ (mem_of_lookup hleft)) hbs.1).bind
        fun c hc => (ih hbs.2).bind fun cs hcs => List.append_subset.mpr ⟨hc, hcs⟩
    · exact ih hbs.2

/-- Binds a query variable that agrees with its earlier binding if it is one of given names. -/
def bindAgreed (names : List String) (d : Draft) (name : String) (b : Binding) :
    DraftBuilder Draft :=
  match names.contains name, d.bindings.lookup name with
  | true, some existing => do
    let (d, merged) ← d.merge existing b
    pure (d.setBinding name merged)
  | _, _ => d.bind name b

theorem bindOptional_cons (names : List String) (d : Draft) (name : String) (b : Binding)
    (rest : Bindings) : bindOptional names d ((name, b) :: rest) =
      d.bindAgreed names name b.padded >>= fun d => bindOptional names d rest := by
  conv_lhs => unfold bindOptional
  unfold bindAgreed
  cases b <;> cases names.contains name <;> cases d.bindings.lookup name <;>
    simp [Binding.padded]

theorem bindAgreed_evolves (names : List String) (name : String) {b : Binding} (h : d.Sound t)
    (hb : b.InScope d.columns d.vars) :
    d.Evolves Fault.Excluded t (bindAgreed names d name b) := by
  unfold bindAgreed
  split
  · rename_i existing _ hexisting
    refine (merge_builds h (h.bindings _ (mem_of_lookup hexisting)) hb).bind fun r t' ht hr => ?_
    obtain ⟨d', merged⟩ := r
    obtain ⟨⟨hsound, hgrows⟩, hmerged⟩ := hr
    exact builds_pure ⟨hsound.setBinding name hmerged,
      hgrows.trans ht (grows_setBinding t' d' name merged)⟩
  · exact bind_evolves h name hb

theorem bindOptional_evolves (names : List String) {bs : Bindings} (h : d.Sound t)
    (hbs : ∀ e ∈ bs, e.2.InScope d.columns d.vars) :
    d.Evolves Fault.Excluded t (bindOptional names d bs) := by
  induction bs generalizing d t with
  | nil => exact evolves_pure h (.refl t d)
  | cons e bs ih =>
    obtain ⟨name, b⟩ := e
    rw [List.forall_mem_cons] at hbs
    rw [bindOptional_cons]
    refine (bindAgreed_evolves names name h hbs.1.padded).bind fun d' t' _ hsound hgrows => ?_
    exact ih hsound fun e he => hgrows.inScope (hbs.2 e he)

/-- A draft that was built from `t₀` on is left-joined as a source. -/
theorem Sound.addOptional {exposed : List Variable} {on : List Condition} (h : d.Sound t₀)
    (ht₀ : t₀ <+: t) (hnested : nested.Sound t) (hexposed : exposed ⊆ nested.vars)
    (honce : exposed.Nodup) (hnew : ∀ v ∈ exposed, t₀.length ≤ v)
    (hon : Condition.referencedAll on ⊆ d.vars ++ exposed) :
    (d.addSource (.leftJoin (nested.toBlock exposed) on exposed)).Sound t ∧
      d.Grows t₀ (d.addSource (.leftJoin (nested.toBlock exposed) on exposed)) := by
  have hblock := hnested.toBlock hexposed
  refine h.addLater ht₀ ⟨hblock.wellScoped, List.Subset.refl exposed⟩
    (fun v hv => ⟨hnew v hv, hnested.taken v (hexposed hv)⟩) honce (fun _ _ => by simp)
    (fun b hb => List.mem_singleton.mp hb ▸ hblock.regular) ?_
  rintro _ ⟨⟩
  exact hon

/-- The conditions on shared query variables read the left side and what the right side exposes. -/
theorem Sound.shared_meets {exposed : List Variable} {bindings : Bindings} (h : d.Sound t)
    (names : List String) (hbindings : ∀ e ∈ bindings, e.2.InScope [] exposed) :
    (sharedConditions d names bindings).Meets Fault.Excluded
      fun cs => Condition.referencedAll cs ⊆ d.vars ++ exposed := by
  refine sharedConditions_meets (fun e he => List.mem_append_left _ (h.within e he))
    (fun e he => ?_) names fun e he => ?_
  · exact (h.bindings e he).mono (fun _ hk => hk) (List.subset_append_left _ _)
  · exact (hbindings e he).mono (fun _ hk => by cases hk) (List.subset_append_right _ _)

/-- The condition of a left join can see the left side and what the right side exposes. -/
theorem Sound.joinScope {exposed : List Variable} {bindings : Bindings} (h : d.Sound t₀)
    (t : VariableTable) (names : List String) (hbindings : ∀ e ∈ bindings, e.2.InScope [] exposed) :
    ExpressionScope.InScope
      { d.scope t names with bindings := (d.scope t names).bindings ++ bindings }
      (d.vars ++ exposed) := by
  refine ⟨fun e he => List.mem_append_left _ (h.within e he), fun e he => ?_⟩
  obtain he | he := List.mem_append.mp he
  · exact (h.bindings e (List.mem_filter.mp he).1).mono (fun _ hk => hk)
      (List.subset_append_left _ _)
  · exact (hbindings e he).mono (fun _ hk => by cases hk) (List.subset_append_right _ _)

/-- The left join with a nested draft, the bindings to its right side, and what its condition can
see. -/
def leftJoinSource (d : Draft) (names : List String) (nested : Draft)
    (condition : Option Expression) : DraftBuilder (Source × Bindings × ExpressionScope) := do
  let (nested, exposed, bindings) ← exposeAll nested [] nested.bindings
  let shared ← (sharedConditions d names bindings : Result _)
  let t ← get
  let scope := { d.scope t names with bindings := (d.scope t names).bindings ++ bindings }
  let own ←
    match condition with
    | some e => do
      let c ← (e.condition scope : Result _)
      pure [c]
    | none => pure []
  return (.leftJoin (nested.toBlock exposed) (shared ++ own) exposed, bindings, scope)

theorem addLeftJoin_eq (d : Draft) (names : List String) (nested : Draft)
    (condition : Option Expression) : d.addLeftJoin names nested condition =
      d.leftJoinSource names nested condition >>= fun r =>
        bindOptional names (d.addSource r.1) r.2.1 := by
  unfold addLeftJoin leftJoinSource
  rw [bind_assoc]
  refine bind_congr fun r => ?_
  obtain ⟨nested', exposed, bindings⟩ := r
  simp only [bind_assoc]
  refine bind_congr fun shared => bind_congr fun t => ?_
  cases condition with
  | none => simp only [pure_bind]
  | some e => simp only [bind_assoc, pure_bind]

/-- A left join with a draft that was built after its left side, from `t₀` on. -/
theorem addLeftJoin_builds (h : d.Sound t₀) (ht₀ : t₀ <+: t) (hnested : nested.Sound t)
    (hlater : empty.Grows t₀ nested) (names : List String) (condition : Option Expression)
    (hallowed : condition.isSome → ∀ f : Fault, f.IsUnsupported → allowed f) :
    (d.addLeftJoin names nested condition).Builds allowed t
      fun d' t' => d'.Sound t' ∧ d.Grows t₀ d' := by
  have hempty : ([] : List Variable) ⊆ nested.vars := List.nil_subset _
  refine (exposeAll_builds hnested hempty List.nodup_nil hnested.bindings).of_excluded.bind
    fun r t' ht hr => ?_
  obtain ⟨nested', exposed, bindings⟩ := r
  obtain ⟨⟨hnested', hgrows⟩, ⟨hexposed, honce, -⟩, hbindings⟩ := hr
  refine builds_lift_bind (h.shared_meets names hbindings).of_excluded
    fun shared hshared => builds_get_bind ?_
  have hsource : ∀ own : List Condition, Condition.referencedAll own ⊆ d.vars ++ exposed →
      DraftBuilder.Builds allowed t' (fun d' t'' => d'.Sound t'' ∧ d.Grows t₀ d')
        (bindOptional names
          (d.addSource (.leftJoin (nested'.toBlock exposed) (shared ++ own) exposed))
          bindings) := by
    intro own hown
    have hnew : ∀ v ∈ exposed, t₀.length ≤ v := fun v hv =>
      ((hlater.trans ht₀ hgrows).fresh v (hexposed hv)).resolve_left List.not_mem_nil
    have hon : Condition.referencedAll (shared ++ own) ⊆ d.vars ++ exposed := by
      rw [Condition.referencedAll_append]
      exact List.append_subset.mpr ⟨hshared, hown⟩
    obtain ⟨hsound, hgrows⟩ := h.addOptional (ht₀.trans ht) hnested' hexposed honce hnew hon
    refine (bindOptional_evolves names hsound fun e he => ?_).of_excluded.mono ?_
    · exact (hbindings e he).mono (fun _ hk => by cases hk) fun v hv =>
        mem_vars_addSource.mpr (.inr hv)
    · exact fun d' t'' _ hd' => ⟨hd'.1, hgrows.trans (ht₀.trans ht) hd'.2⟩
  cases condition with
  | none => exact hsource [] (List.nil_subset _)
  | some e =>
    have hscope := h.joinScope t' names hbindings
    refine builds_lift_bind ((Expression.condition_meets hscope e).allow (hallowed rfl))
      fun c hc => hsource [c] ?_
    rw [Condition.referencedAll, Condition.referencedAll, List.append_nil]
    exact hc

end Draft

/-! ### Unions -/

namespace UnionDraft

open DraftBuilder

variable {t : VariableTable} {index : Variable} {vs : List Variable}

/-- A branch of a union whose index was taken before it, with what it exposes. -/
structure Branch (t : VariableTable) (index : Variable) (vs : List Variable)
    (e : Draft × List Variable) : Prop where
  sound : e.1.Sound t
  later : ∀ v ∈ e.1.vars, index < v
  exposed : e.2 ⊆ e.1.vars
  covered : e.2 ⊆ vs

/-- The invariant of a union under construction. -/
structure Sound (t : VariableTable) (index : Variable) (u : UnionDraft) : Prop where
  branches : ∀ e ∈ u.branches, Branch t index u.vars e
  taken : ∀ v ∈ u.vars, index < v ∧ v < t.length
  once : u.vars.Nodup
  bindings : ∀ e ∈ u.bindings, e.2.InScope [] (index :: u.vars)

theorem Branch.mono {t' : VariableTable} {vs' : List Variable} {e : Draft × List Variable}
    (h : Branch t index vs e) (ht : t <+: t') (hvs : vs ⊆ vs') : Branch t' index vs' e :=
  { h with sound := h.sound.mono ht, covered := List.Subset.trans h.covered hvs }

/-- A branch assigns the next variable and exposes it, with what its shape depends on. -/
theorem Branch.expose {d : Draft} {exposed : List Variable} (h : Branch t index vs (d, exposed))
    (hindex : index < t.length) {b : Binding} (hb : b.InScope d.columns d.vars) {x : Scalar}
    (hx : x.referenced ⊆ d.vars) (info : VariableInfo) :
    Branch (t ++ [info]) index (vs ++ t.length :: b.shape.indices)
      (d.assign t.length x, addVariables (exposed ++ [t.length]) b.shape.indices) := by
  refine ⟨?_, ?_, ?_, ?_⟩
  · exact (h.sound.mono (List.prefix_append t _)).assign h.sound.fresh (by simp) hx
  · intro v hv
    rw [Draft.vars_assign, List.mem_append, List.mem_singleton] at hv
    obtain hv | rfl := hv
    · exact h.later v hv
    · exact hindex
  · intro v hv
    rw [Draft.vars_assign]
    obtain hv | hv := mem_addVariables.mp hv
    · exact append_subset_append h.exposed (List.Subset.refl _) hv
    · exact List.mem_append_left _ (hb.indices hv)
  · intro v hv
    have hv : v ∈ exposed ∨ v = t.length ∨ v ∈ b.shape.indices := by
      simpa [or_assoc] using mem_addVariables.mp hv
    rw [List.mem_append, List.mem_cons]
    exact hv.imp (fun hv => h.covered hv) id

/-- The next variable holds a query variable in all branches that bind it. -/
theorem exposeName_meets (hindex : index < t.length) (name : String)
    {bs : List (Draft × List Variable)} (h : ∀ e ∈ bs, Branch t index vs e) :
    (exposeName t.length name bs).Meets Fault.Excluded fun r =>
      (∀ info, ∀ e ∈ r.1, Branch (t ++ [info]) index (vs ++ t.length :: r.2) e) ∧
      (∀ e ∈ bs, ∀ b, e.1.bindings.lookup name = some b → b.shape.indices ⊆ r.2) ∧
      ∀ v ∈ r.2, index < v ∧ v < t.length := by
  induction bs with
  | nil =>
    exact ⟨fun _ _ he => absurd he List.not_mem_nil, fun _ he => absurd he List.not_mem_nil,
      fun _ hv => absurd hv List.not_mem_nil⟩
  | cons e bs ih =>
    obtain ⟨d, exposed⟩ := e
    rw [List.forall_mem_cons] at h
    obtain ⟨hfirst, hrest⟩ := h
    rw [exposeName]
    split
    · rename_i hnone
      refine (ih hrest).bind fun r hr => ?_
      obtain ⟨hbranches, hindices, hlater⟩ := hr
      refine ⟨fun info => List.forall_mem_cons.mpr ⟨?_, hbranches info⟩,
        List.forall_mem_cons.mpr ⟨?_, hindices⟩, hlater⟩
      · exact hfirst.mono (List.prefix_append t _) (List.subset_append_left _ _)
      · exact fun b hb => absurd (hnone.symm.trans hb) (Option.some_ne_none b).symm
    · rename_i b hlookup
      have hb := hfirst.sound.bindings _ (mem_of_lookup hlookup)
      refine (Binding.toScalar_meets hfirst.sound.within hb).bind fun x hx =>
        (ih hrest).bind fun r hr => ?_
      obtain ⟨hbranches, hindices, hlater⟩ := hr
      refine ⟨fun info => List.forall_mem_cons.mpr ⟨?_, fun e he => ?_⟩,
        List.forall_mem_cons.mpr ⟨?_, fun e he b' hb' => ?_⟩, fun v hv => ?_⟩
      · refine (hfirst.expose hindex hb hx info).mono (List.prefix_refl _) ?_
        exact append_subset_append (List.Subset.refl _)
          (List.cons_subset_cons _ (List.subset_append_left _ _))
      · refine (hbranches info e he).mono (List.prefix_refl _) ?_
        exact append_subset_append (List.Subset.refl _)
          (List.cons_subset_cons _ (List.subset_append_right _ _))
      · intro b' hb'
        cases hlookup.symm.trans hb'
        exact List.subset_append_left _ _
      · exact List.Subset.trans (hindices e he b' hb') (List.subset_append_right _ _)
      · obtain hv | hv := List.mem_append.mp hv
        · exact ⟨hfirst.later v (hb.indices hv), hfirst.sound.taken v (hb.indices hv)⟩
        · exact hlater v hv

theorem indicesAll_subset {shapes : List (Option Shape)}
    (h : ∀ s, some s ∈ shapes → s.indices ⊆ vs) : Shape.indicesAll shapes ⊆ vs := by
  induction shapes with
  | nil => exact List.nil_subset vs
  | cons s shapes ih =>
    refine List.append_subset.mpr ⟨?_, ih fun s hs => h s (List.mem_cons_of_mem _ hs)⟩
    cases s with
    | none => exact List.nil_subset vs
    | some s => exact h s List.mem_cons_self

/-- The shape of a union depends on its index and on what the shapes of its branches depend on. -/
theorem indices_shape (index : Variable) {shapes : List (Option Shape)}
    (h : ∀ s, some s ∈ shapes → s.indices ⊆ vs) : (shape index shapes).indices ⊆ index :: vs := by
  have hbranches : (Shape.byBranch index shapes).indices ⊆ index :: vs :=
    List.cons_subset_cons _ (indicesAll_subset h)
  unfold shape
  split
  · split
    · exact List.nil_subset _
    · exact hbranches
  · exact hbranches

theorem addName_builds {u : UnionDraft} (h : u.Sound t index) (hindex : index < t.length)
    (name : String) :
    (u.addName index name).Builds Fault.Excluded t fun u' t' => u'.Sound t' index := by
  refine builds_get_bind (builds_fresh_bind ?_)
  refine builds_lift_bind (exposeName_meets hindex name h.branches) fun r hr => builds_pure ?_
  obtain ⟨branches, indices⟩ := r
  obtain ⟨hbranches, hindices, hlater⟩ := hr
  have hvars : ∀ v, v ∈ addVariables (u.vars ++ [t.length]) indices ↔
      v ∈ u.vars ∨ v = t.length ∨ v ∈ indices := by
    intro v
    rw [mem_addVariables, List.mem_append, List.mem_singleton, or_assoc]
  have hkept : u.vars ⊆ addVariables (u.vars ++ [t.length]) indices := fun v hv =>
    (hvars v).mpr (.inl hv)
  refine ⟨fun e he => (hbranches _ e he).mono (List.prefix_refl _) ?_, fun v hv => ?_, ?_, ?_⟩
  · intro v hv
    rw [List.mem_append, List.mem_cons] at hv
    exact (hvars v).mpr hv
  · rw [List.length_append, List.length_singleton]
    obtain hv | rfl | hv := (hvars v).mp hv
    · exact ⟨(h.taken v hv).1, Nat.lt_succ_of_lt (h.taken v hv).2⟩
    · exact ⟨hindex, Nat.lt_succ_self _⟩
    · exact ⟨(hlater v hv).1, Nat.lt_succ_of_lt (hlater v hv).2⟩
  · refine nodup_addVariables (h.once.append (List.nodup_singleton _) ?_)
    exact List.disjoint_singleton.mpr fun hmem => Nat.lt_irrefl _ (h.taken _ hmem).2
  · intro e he
    obtain he | he := List.mem_append.mp he
    · exact (h.bindings e he).mono (fun _ hk => hk) (List.cons_subset_cons _ hkept)
    · obtain rfl := List.mem_singleton.mp he
      refine ⟨List.mem_cons_of_mem _ ((hvars _).mpr (.inr (.inl rfl))), indices_shape index ?_⟩
      intro s hs v hv
      obtain ⟨found, hfound, hs⟩ := List.mem_map.mp hs
      obtain ⟨e, he, rfl⟩ := List.mem_map.mp hfound
      obtain ⟨b, hb, rfl⟩ := Option.map_eq_some_iff.mp hs
      exact (hvars v).mpr (.inr (.inr (hindices e he b hb hv)))

theorem addNames_builds {u : UnionDraft} {names : List String} (h : u.Sound t index)
    (hindex : index < t.length) :
    (addNames index u names).Builds Fault.Excluded t fun u' t' => u'.Sound t' index := by
  induction names generalizing u t with
  | nil => exact builds_pure h
  | cons name names ih =>
    refine (addName_builds h hindex name).bind fun u' t' ht hu' => ?_
    exact ih hu' (Nat.lt_of_lt_of_le hindex ht.length_le)

/-- A union of drafts that were built after its index was taken. -/
theorem sound_ofDrafts {branches : List Draft}
    (h : ∀ b ∈ branches, b.Sound t ∧ ∀ v ∈ b.vars, index < v) :
    Sound t index ⟨branches.map (·, []), [], []⟩ := by
  refine ⟨fun e he => ?_, fun _ hv => absurd hv List.not_mem_nil, List.nodup_nil,
    fun _ he => absurd he List.not_mem_nil⟩
  obtain ⟨b, hb, rfl⟩ := List.mem_map.mp he
  exact ⟨(h b hb).1, (h b hb).2, List.nil_subset _, List.nil_subset _⟩

/-- A finished union as a source. -/
def source (index : Variable) (u : UnionDraft) : Source :=
  .union index (u.branches.map fun (d, exposed) => d.toBlock exposed) u.vars

/-- A finished union is a source that binds its index and its variables. -/
theorem Sound.source {u : UnionDraft} (h : u.Sound t index) :
    (u.source index).Scoped ∧
      ∀ b ∈ u.branches.map (fun (d, exposed) => d.toBlock exposed),
        b.Everywhere (Block.Regular t) := by
  have hblocks : ∀ b ∈ u.branches.map (fun (d, exposed) => d.toBlock exposed),
      b.WellBuilt t ∧ b.exposed ⊆ u.vars := by
    intro b hb
    obtain ⟨e, he, rfl⟩ := List.mem_map.mp hb
    have hbranch := h.branches e he
    exact ⟨hbranch.sound.toBlock hbranch.exposed, hbranch.covered⟩
  refine ⟨⟨fun hmem => Nat.lt_irrefl _ (h.taken index hmem).1, ?_⟩,
    fun b hb => (hblocks b hb).1.regular⟩
  exact Block.scopedBranches_iff.mpr fun b hb => ⟨(hblocks b hb).1.wellScoped, (hblocks b hb).2⟩

end UnionDraft

namespace Draft

open DraftBuilder

variable {t t₀ : VariableTable} {d : Draft}

/-- A finished union, whose index was the next variable, is a source of the draft. -/
theorem Sound.addBranches (h : d.Sound t₀) (ht₀ : t₀ <+: t) (htaken : t₀.length < t.length)
    {u : UnionDraft} (hu : u.Sound t t₀.length) :
    (∀ v ∈ (u.source t₀.length).produced, t₀.length ≤ v) ∧
      (d.addSource (u.source t₀.length)).Sound t ∧
        d.Grows t₀ (d.addSource (u.source t₀.length)) := by
  obtain ⟨hscoped, hbelow⟩ := hu.source
  have hnew : ∀ v ∈ t₀.length :: u.vars, t₀.length ≤ v ∧ v < t.length := by
    refine List.forall_mem_cons.mpr ⟨⟨Nat.le_refl _, htaken⟩, ?_⟩
    exact fun v hv => ⟨Nat.le_of_lt (hu.taken v hv).1, (hu.taken v hv).2⟩
  have honce : (t₀.length :: u.vars).Nodup :=
    List.nodup_cons.mpr ⟨fun hmem => Nat.lt_irrefl _ (hu.taken _ hmem).1, hu.once⟩
  exact ⟨fun v hv => (hnew v hv).1, h.addLater ht₀ hscoped hnew honce (fun _ _ h => by cases h)
    hbelow (fun _ hon => by cases hon)⟩

/-- The union of drafts, with the bindings to it. -/
def unionDraft (index : Variable) (branches : List Draft) : DraftBuilder UnionDraft :=
  UnionDraft.addNames index ⟨branches.map (·, []), [], []⟩
    (sortNames (branches.flatMap fun b => b.bindings.map (·.1)))

theorem addUnion_eq (d : Draft) (index : Variable) (branches : List Draft) :
    d.addUnion index branches = unionDraft index branches >>= fun u =>
      bindAll (d.addSource (u.source index)) u.bindings :=
  rfl

/-- A union of drafts that were built after its index was taken as the next variable. -/
theorem addUnion_builds (h : d.Sound t₀) (ht₀ : t₀ <+: t) (htaken : t₀.length < t.length)
    {branches : List Draft}
    (hbranches : ∀ b ∈ branches, b.Sound t ∧ ∀ v ∈ b.vars, t₀.length < v) :
    (d.addUnion t₀.length branches).Builds Fault.Excluded t
      fun d' t' => d'.Sound t' ∧ d.Grows t₀ d' := by
  have hstart := UnionDraft.sound_ofDrafts hbranches
  refine (UnionDraft.addNames_builds hstart htaken).bind fun u t' ht hu => ?_
  obtain ⟨-, hsound, hgrows⟩ :=
    h.addBranches (ht₀.trans ht) (Nat.lt_of_lt_of_le htaken ht.length_le) hu
  refine (bindAll_evolves hsound fun e he => ?_).mono fun d' t'' _ hd' => ?_
  · exact (hu.bindings e he).mono (fun _ hk => by cases hk) fun v hv =>
      mem_vars_addSource.mpr (.inr hv)
  · exact ⟨hd'.1, hgrows.trans (ht₀.trans ht) hd'.2⟩

end Draft

end VirtualGraph
