import VirtualGraph.Proofs.Draft.Sources

/-!
# Answers of unions

A union joins the solutions of all its branches to those of a draft. Every branch assigns the texts
of its query variables to output variables that the branches share, and a branch that does not bind
a query variable leaves the output null. While this goes on, the rows of a branch are carried on
with all their values, so that on the rows of the union each output stands for the term that the
branch has for the query variable.
-/

namespace VirtualGraph

namespace UnionDraft

open DraftBuilder

variable {E : Setting} {t T : VariableTable} {outs : List (String × Variable)}
variable {e : Draft × List Variable} {name : String} {drafts : List Draft}
variable {branches : List (Draft × List Variable)}

/-- The next output holds the texts of its query variable in all branches. -/
theorem exposeName_follows (h : List.Forall₂ (Draft.Follows E t outs) drafts branches)
    (hdrafts : ∀ b ∈ drafts, b.Sound t) (hsound : ∀ e ∈ branches, e.1.Sound t)
    (houts : ∀ o ∈ outs, o.2 < t.length) (name : String) :
    (exposeName t.length name branches).Meets Fault.Any fun r => ∀ info,
      List.Forall₂ (Draft.Follows E (t ++ [info]) (outs ++ [(name, t.length)])) drafts r.1 := by
  induction h with
  | nil => exact fun _ => .nil
  | @cons b e drafts branches hfirst _ ih =>
    obtain ⟨d, exposed⟩ := e
    rw [List.forall_mem_cons] at hdrafts hsound
    have hlookup : d.bindings.lookup name = b.bindings.lookup name :=
      congrArg (List.lookup name) hfirst.bindings
    rw [exposeName]
    split
    · rename_i hnone
      refine (ih hdrafts.2 hsound.2).bind fun r hr info => ?_
      exact .cons (hfirst.keep hsound.1 (hlookup ▸ hnone)) (hr info)
    · rename_i c hc
      refine (c.toScalar_textOn E d.columns).bind fun x hx =>
        (ih hdrafts.2 hsound.2).bind fun r hr info => ?_
      exact .cons (hfirst.expose hdrafts.1 hsound.1 houts (hlookup ▸ hc) hx) (hr info)

theorem map_lookup_eq (h : List.Forall₂ (Draft.Follows E t outs) drafts branches) :
    branches.map (fun (d, _) => d.bindings.lookup name) =
      drafts.map (·.bindings.lookup name) := by
  induction h with
  | nil => rfl
  | cons hfirst _ ih =>
    exact congrArg₂ List.cons (congrArg (List.lookup name) hfirst.bindings) ih

theorem exists_follows (h : List.Forall₂ (Draft.Follows E t outs) drafts branches) {n : Nat}
    (he : branches[n]? = some e) : ∃ b, drafts[n]? = some b ∧ Draft.Follows E t outs b e := by
  induction h generalizing n with
  | nil => cases he
  | cons hfirst _ ih =>
    cases n with
    | zero =>
      cases he
      exact ⟨_, rfl, hfirst⟩
    | succ n => exact ih he

theorem shape_eq_known {index : Variable} {shapes : List (Option Shape)} {s : TermShape}
    (h : UnionDraft.shape index shapes = .known s) {c : Shape} (hc : some c ∈ shapes) :
    c = .known s := by
  have hmem : c ∈ shapes.filterMap id := List.mem_filterMap.mpr ⟨some c, hc, rfl⟩
  unfold UnionDraft.shape at h
  split at h
  · rename_i first rest hshapes
    split at h
    · rename_i hall
      cases h
      rw [hshapes] at hmem
      obtain rfl | hmem := List.mem_cons.mp hmem
      · rfl
      · simpa using List.all_eq_true.mp hall c hmem
    · cases h
  · cases h

/-- The binding of a union allows for the binding of the branch that a row comes from. -/
theorem allows_found {index : Variable} {found : List (Option Binding)} {n : Nat}
    {b : Option Binding} {row row' : Row String} (hb : found[n]? = some b)
    (hindex : row' index = some (E.domain.constant (toString n) .integer))
    (hrow : ∀ c ∈ b, ∀ v ∈ c.shape.indices, row' v = row v) :
    Binding.Allows E.domain row row' (UnionDraft.shape index (found.map (·.map Binding.shape)))
      (found.any fun b => (b.map Binding.nullable).getD true) b := by
  refine ⟨fun hnull => ?_, fun c hc k hk => ?_⟩
  · have hnever : (b.map Binding.nullable).getD true = false := by
      simpa using List.any_eq_false.mp hnull b (List.mem_of_getElem? hb)
    cases b with
    | none => cases hnever
    | some c => exact ⟨c, rfl, hnever⟩
  · refine says_shape hindex ?_ (hk.congr (hrow c hc))
    rw [List.getElem?_map, hb, Option.mem_def.mp hc]
    rfl

/-- What a union binds a query variable to, from what its branches bind it to. -/
def binding (index : Variable) (found : List (Option Binding)) (output : Variable) : Binding :=
  .value output (UnionDraft.shape index (found.map (·.map Binding.shape)))
    (found.any fun b => (b.map Binding.nullable).getD true)
    ((found.filterMap id).all Binding.escaped)

/-- The invariant of a union under construction with respect to the drafts of its branches. -/
structure Tracks (E : Setting) (t : VariableTable) (index : Variable) (drafts : List Draft)
    (outs : List (String × Variable)) (u : UnionDraft) : Prop where
  sound : u.Sound t index
  follows : List.Forall₂ (Draft.Follows E t outs) drafts u.branches
  covered : ∀ o ∈ outs, o.2 ∈ u.vars
  bindings : u.bindings =
    outs.map fun o => (o.1, binding index (drafts.map (·.bindings.lookup o.1)) o.2)

/-- A row of a union reports a row of a branch: it has the texts of its query variables, the number
of the branch, and the numbers of branches that the shapes of its terms depend on. -/
structure Reports (E : Setting) (u : UnionDraft) (index : Variable)
    (outs : List (String × Variable)) (n : Nat) (b : Draft) (row r : Row String) : Prop where
  index : r index = some (E.domain.constant (toString n) .integer)
  texts : ∀ o ∈ outs, r o.2 = b.text E row o.1
  indices : ∀ o ∈ outs, ∀ c ∈ b.bindings.lookup o.1, ∀ v ∈ c.shape.indices,
    v ∈ u.vars ∧ r v = row v

variable {index : Variable} {u : UnionDraft}

theorem addName_tracks (h : u.Tracks E t index drafts outs) (hindex : index < t.length)
    (hdrafts : ∀ b ∈ drafts, b.Sound t) (name : String) :
    (u.addName index name).Builds Fault.Excluded t fun u' t' =>
      u'.Tracks E t' index drafts (outs ++ [(name, t.length)]) := by
  have hfollows : (u.addName index name).Builds Fault.Any t fun u' t' =>
      List.Forall₂ (Draft.Follows E t' (outs ++ [(name, t.length)])) drafts u'.branches ∧
        (∀ o ∈ outs ++ [(name, t.length)], o.2 ∈ u'.vars) ∧
          u'.bindings = (outs ++ [(name, t.length)]).map fun o =>
            (o.1, binding index (drafts.map (·.bindings.lookup o.1)) o.2) := by
    refine builds_get_bind (builds_fresh_bind ?_)
    refine builds_lift_bind (exposeName_follows h.follows hdrafts
      (fun e he => (h.sound.branches e he).sound)
      (fun o ho => (h.sound.taken _ (h.covered o ho)).2) name) fun r hr => builds_pure ?_
    refine ⟨hr _, fun o ho => mem_addVariables.mpr (.inl ?_), ?_⟩
    · obtain ho | ho := List.mem_append.mp ho
      · exact List.mem_append_left _ (h.covered o ho)
      · exact List.mem_append_right _ (by rw [List.mem_singleton.mp ho]; exact List.mem_cons_self)
    · rw [List.map_append, ← h.bindings, map_lookup_eq h.follows]
      rfl
  exact ((addName_builds h.sound hindex name).and hfollows).mono fun u' t' _ hu' =>
    ⟨hu'.1, hu'.2.1, hu'.2.2.1, hu'.2.2.2⟩

theorem addNames_tracks {names : List String} (h : u.Tracks E t index drafts outs)
    (hindex : index < t.length) (hdrafts : ∀ b ∈ drafts, b.Sound t) :
    (addNames index u names).Builds Fault.Excluded t fun u' t' =>
      ∃ outs', u'.Tracks E t' index drafts outs' ∧ outs'.map (·.1) = outs.map (·.1) ++ names := by
  induction names generalizing u t outs with
  | nil => exact builds_pure ⟨outs, h, (List.append_nil _).symm⟩
  | cons name names ih =>
    refine (addName_tracks h hindex hdrafts name).bind fun u' t' ht hu' => ?_
    refine (ih hu' (Nat.lt_of_lt_of_le hindex ht.length_le) fun b hb => (hdrafts b hb).mono ht).mono
      fun u'' t'' _ hu'' => ?_
    obtain ⟨outs', hu'', hnames⟩ := hu''
    refine ⟨outs', hu'', ?_⟩
    rw [hnames, List.map_append, List.append_assoc]
    rfl

/-- The union of no outputs yet. -/
theorem tracks_start (hdrafts : ∀ b ∈ drafts, b.Sound t ∧ ∀ v ∈ b.vars, index < v) :
    Tracks E t index drafts [] ⟨drafts.map (·, []), [], []⟩ := by
  refine ⟨⟨fun e he => ?_, fun _ hv => absurd hv List.not_mem_nil, List.nodup_nil,
    fun _ he => absurd he List.not_mem_nil⟩, ?_, fun _ ho => absurd ho List.not_mem_nil, rfl⟩
  · obtain ⟨b, hb, rfl⟩ := List.mem_map.mp he
    exact ⟨(hdrafts b hb).1, (hdrafts b hb).2, List.nil_subset _, List.nil_subset _⟩
  · refine List.forall₂_map_right_iff.mpr (List.forall₂_same.mpr fun b _ => ?_)
    exact Draft.follows_self E t b

/-- The query variables of a union are those that its branches bind, each once. -/
theorem addNames_collects (hindex : index < t.length)
    (hdrafts : ∀ b ∈ drafts, b.Sound t ∧ ∀ v ∈ b.vars, index < v) :
    (addNames index ⟨drafts.map (·, []), [], []⟩
      (sortNames (drafts.flatMap fun b => b.bindings.map (·.1)))).Builds Fault.Excluded t
        fun u t' => (∃ outs, u.Tracks E t' index drafts outs) ∧ (u.bindings.map (·.1)).Nodup ∧
          ∀ b ∈ drafts, ∀ x, x ∉ u.bindings.map (·.1) → b.bindings.lookup x = none := by
  refine (addNames_tracks (tracks_start (E := E) hdrafts) hindex fun b hb => (hdrafts b hb).1).mono
    fun u t' _ hu => ?_
  obtain ⟨outs, hu, houts⟩ := hu
  have hnames : u.bindings.map (·.1) =
      sortNames (drafts.flatMap fun b => b.bindings.map (·.1)) := by
    rw [hu.bindings, List.map_map]
    exact houts
  refine ⟨⟨outs, hu⟩, hnames ▸ nodup_sortNames _, fun b hb x hx => ?_⟩
  rw [hnames, mem_sortNames] at hx
  cases hlookup : b.bindings.lookup x with
  | none => rfl
  | some c =>
    exact absurd (List.mem_flatMap.mpr ⟨b, hb, List.mem_map_of_mem (mem_of_lookup hlookup)⟩) hx

theorem Tracks.mono {t' : VariableTable} (h : u.Tracks E t index drafts outs) (ht : t <+: t') :
    u.Tracks E t' index drafts outs := by
  refine ⟨⟨fun e he => ?_, fun v hv => ?_, h.sound.once, h.sound.bindings⟩, ?_, h.covered,
    h.bindings⟩
  · exact (h.sound.branches e he).mono ht (List.Subset.refl _)
  · exact ⟨(h.sound.taken v hv).1, Nat.lt_of_lt_of_le (h.sound.taken v hv).2 ht.length_le⟩
  · exact h.follows.imp fun _ _ hf => hf.mono ht

/-! ### Rows of a union -/

section Rows

variable (h : u.Tracks E T index drafts outs)

include h

theorem Tracks.assign_index {v : Variable} (hv : v ∈ u.vars) (r : Row String)
    (n : Option String) : r.assign index n v = r v :=
  Row.assign_of_ne (Nat.ne_of_gt (h.sound.taken v hv).1)

/-- A row that carries on a row of a branch is reported with the number of the branch. -/
theorem Tracks.reports {b : Draft} (hb : b.Sound T) (he : e ∈ u.branches)
    (hfollows : Draft.Follows E T outs b e) {row row' : Row String}
    (hvalues : ∀ v ∈ b.vars, row' v = row v)
    (htexts : ∀ o ∈ outs, row'.restrict e.2 o.2 = b.text E row o.1) (n : Nat) :
    u.Reports E index outs n b row
      ((row'.restrict e.2).assign index (some (E.domain.constant (toString n) .integer))) where
  index := Row.assign_self
  texts := fun o ho => (h.assign_index (h.covered o ho) _ _).trans (htexts o ho)
  indices := fun o ho c hc v hv => by
    have hexposed := hfollows.indices o ho c hc hv
    have hvar := (h.sound.branches e he).covered hexposed
    refine ⟨hvar, (h.assign_index hvar _ _).trans ((Row.restrict_of_mem hexposed).trans ?_)⟩
    exact hvalues v ((hb.bindings _ (mem_of_lookup hc)).indices hv)

theorem Tracks.exists_output {x : String × Binding} (hx : x ∈ u.bindings) :
    ∃ o ∈ outs, x = (o.1, binding index (drafts.map (·.bindings.lookup o.1)) o.2) := by
  rw [h.bindings] at hx
  obtain ⟨o, ho, rfl⟩ := List.mem_map.mp hx
  exact ⟨o, ho, rfl⟩

theorem Tracks.readsFrom {x : String × Binding} (hx : x ∈ u.bindings) (columns : ColumnIndex) :
    x.2.ReadsFrom columns (u.source index).produced := by
  have hscope := h.sound.bindings x hx
  obtain ⟨o, ho, rfl⟩ := h.exists_output hx
  exact hscope

variable (hsound : ∀ b ∈ drafts, b.Sound T)

include hsound

/-- A row of a union reports a row of one of its branches. -/
theorem Tracks.exists_row {r : Row String}
    (hr : r ∈ Block.sourceRows E.domain E.db T (u.source index)) :
    ∃ n b, drafts[n]? = some b ∧ ∃ row ∈ b.rowsIn E T, u.Reports E index outs n b row r := by
  obtain ⟨n, block, hblock, r', hr', rfl⟩ := Block.mem_branchRows hr
  rw [List.getElem?_map, Option.map_eq_some_iff] at hblock
  obtain ⟨e, he, rfl⟩ := hblock
  have hmem := List.mem_of_getElem? he
  have hbranch := h.sound.branches e hmem
  rw [hbranch.sound.rows_toBlock hbranch.exposed] at hr'
  obtain ⟨row', hrow', rfl⟩ := Multiset.mem_map.mp hr'
  obtain ⟨b, hb, hfollows⟩ := exists_follows h.follows he
  obtain ⟨row, hrow, hvalues, htexts⟩ :=
    (hfollows.carries T (List.prefix_refl T)).exists_of_mem hrow'
  refine ⟨n, b, hb, row, hrow, ?_⟩
  rw [Nat.zero_add]
  exact h.reports (hsound b (List.mem_of_getElem? hb)) hmem hfollows hvalues htexts n

/-- What is read off the rows of a union is read off the rows that they report. -/
theorem Tracks.bind_sourceRows {β : Type} {g : Row String → Multiset β}
    {f : Draft → Row String → Multiset β}
    (hg : ∀ n b, drafts[n]? = some b → ∀ row ∈ b.rowsIn E T, ∀ r : Row String,
      u.Reports E index outs n b row r → g r = f b row) :
    (Block.sourceRows E.domain E.db T (u.source index)).bind g =
      (drafts.map fun b => (b.rowsIn E T).bind (f b)).sum := by
  have hbranches : ∀ (n : Nat) (ds : List Draft) (bs : List (Draft × List Variable)),
      List.Forall₂ (Draft.Follows E T outs) ds bs →
        (∀ i b, ds[i]? = some b → drafts[n + i]? = some b) → (∀ e ∈ bs, e ∈ u.branches) →
          (Block.branchRows E.domain E.db T index n
            (bs.map fun (d, exposed) => d.toBlock exposed)).bind g =
              (ds.map fun b => (b.rowsIn E T).bind (f b)).sum := by
    intro n ds bs hfollows hds hbs
    induction hfollows generalizing n with
    | nil => rfl
    | @cons b e ds bs hfirst _ ih =>
      obtain ⟨d, exposed⟩ := e
      rw [List.forall_mem_cons] at hbs
      have hb : drafts[n]? = some b := hds 0 b rfl
      have hrest : ∀ i b, ds[i]? = some b → drafts[n + 1 + i]? = some b := by
        intro i b' hb'
        rw [Nat.add_assoc, Nat.add_comm 1 i]
        exact hds (i + 1) b' hb'
      have hbranch := h.sound.branches _ hbs.1
      rw [List.map_cons, Block.branchRows, Multiset.add_bind, ih _ hrest hbs.2, List.map_cons,
        List.sum_cons, hbranch.sound.rows_toBlock hbranch.exposed, Multiset.map_map,
        Multiset.bind_map]
      refine congrArg (· + _) (congrArg Multiset.join ?_)
      refine (hfirst.carries T (List.prefix_refl T)).map_rows fun row hrow row' hvalues htexts => ?_
      exact hg n b hb row hrow _ (h.reports (hsound b (List.mem_of_getElem? hb)) hbs.1 hfirst
        hvalues htexts n)
  refine hbranches 0 drafts u.branches h.follows (fun i b hb => ?_) fun _ he => he
  rwa [Nat.zero_add]

omit hsound

variable (hdrafts : ∀ b ∈ drafts, b.Tracks E T) (hvalued : ∀ name, E.valued name)

include hdrafts hvalued

/-- On a row of a union a binding stands for the term that its branch has. -/
theorem Tracks.trueOf {n : Nat} {b : Draft} (hb : drafts[n]? = some b) {row : Row String}
    (hrow : row ∈ b.rowsIn E T) {r : Row String} (hr : u.Reports E index outs n b row r)
    {x : String × Binding} (hx : x ∈ u.bindings) (columns : ColumnIndex) :
    x.2.TrueOf E columns (r.restrict (u.source index).produced) x.1 ∧
      x.2.termOf E columns (r.restrict (u.source index).produced) x.1 = b.solution E row x.1 := by
  obtain ⟨o, ho, rfl⟩ := h.exists_output hx
  have hb' := hdrafts b (List.mem_of_getElem? hb)
  have hproduced : ∀ v ∈ u.vars, r.restrict (u.source index).produced v = r v := fun v hv =>
    Row.restrict_of_mem (List.mem_cons_of_mem _ hv)
  have hfound : (drafts.map (·.bindings.lookup o.1))[n]? = some (b.bindings.lookup o.1) := by
    rw [List.getElem?_map, hb]
    rfl
  refine Draft.Faithful.trueOf_output hb'.sound (hb'.faithful T (List.prefix_refl T) row hrow)
    (hvalued o.1) (allows_found hfound ?_ fun c hc v hv => ?_) ?_ columns
  · exact (Row.restrict_of_mem List.mem_cons_self).trans hr.index
  · obtain ⟨hvar, hvalue⟩ := hr.indices o ho c hc v hv
    rw [hproduced v hvar, hvalue]
  · rw [hproduced _ (h.covered o ho), hr.texts o ho]

/-- The rows of a union have the solutions of all its branches. -/
theorem Tracks.solutions
    (hnames : ∀ b ∈ drafts, ∀ x, x ∉ u.bindings.map (·.1) → b.bindings.lookup x = none)
    (columns : ColumnIndex) :
    (Block.sourceRows E.domain E.db T (u.source index)).bind (fun r =>
      u.bindings.solutions E columns (r.restrict (u.source index).produced)) =
        (drafts.map (·.solutions E T)).sum := by
  rw [h.bind_sourceRows (fun b hb => (hdrafts b hb).sound) (f := fun b row => {b.solution E row})
    fun n b hb row hrow r hr => ?_]
  · simp only [Multiset.bind_singleton]
    rfl
  · refine Bindings.solutions_eq_singleton (fun x hx => ?_) fun x hx => ?_
    · exact (h.trueOf hdrafts hvalued hb hrow hr hx columns).2
    · rw [Draft.solution, hnames b (List.mem_of_getElem? hb) x hx, Option.bind_none]

end Rows

end UnionDraft

namespace Draft

open DraftBuilder

variable {E : Setting} {t t₀ : VariableTable} {d : Draft}

/-- A union of drafts that were built after its index was taken joins the solutions of all of them
to those of a draft. -/
theorem addUnion_solutions (h : d.Tracks E t₀) (ht₀ : t₀ <+: t) (htaken : t₀.length < t.length)
    {branches : List Draft}
    (hbranches : ∀ b ∈ branches, b.Tracks E t ∧ ∀ v ∈ b.vars, t₀.length < v)
    (hvalued : ∀ name, E.valued name) :
    (d.addUnion t₀.length branches).Builds Fault.Excluded t fun d' t' =>
      (d'.Tracks E t' ∧ d.Grows t₀ d') ∧ d'.tables = d.tables ∧ ∀ T, t' <+: T →
        d'.solutions E T =
          Solution.join (d.solutions E T) (branches.map (·.solutions E T)).sum := by
  refine (UnionDraft.addNames_collects (E := E) htaken fun b hb =>
    ⟨(hbranches b hb).1.sound, (hbranches b hb).2⟩).bind fun u t' ht hu => ?_
  obtain ⟨⟨outs, hu⟩, -, hunbound⟩ := hu
  have hdrafts : ∀ T, t' <+: T → ∀ b ∈ branches, b.Tracks E T := fun T hT b hb =>
    (hbranches b hb).1.mono (ht.trans hT)
  have htaken' := Nat.lt_of_lt_of_le htaken ht.length_le
  obtain ⟨hlater, hsound, hgrows⟩ := h.sound.addBranches (ht₀.trans ht) htaken' hu.sound
  have hnew : ∀ v ∈ (u.source t₀.length).produced, v ∉ d.vars := fun v hv hmem =>
    Nat.not_lt_of_le (hlater v hv) (h.sound.taken v hmem)
  have hvs : (u.source t₀.length).produced ⊆ (d.addSource (u.source t₀.length)).vars := fun v hv =>
    mem_vars_addSource.mpr (.inr hv)
  have hwaits : ∀ e ∈ u.bindings, (d.addSource (u.source t₀.length)).Waits E t'
      (u.source t₀.length).produced e.1 e.2 := by
    intro e he
    refine ⟨(hu.sound.bindings e he).mono (fun _ hk => by cases hk) hvs,
      hu.readsFrom he _,
      fun T hT x hx => ?_⟩
    rw [(h.sound.mono ((ht₀.trans ht).trans hT)).answers_addSource hnew] at hx
    obtain ⟨row, -, hx⟩ := Multiset.mem_bind.mp hx
    obtain ⟨joined, hjoined, rfl⟩ := Multiset.mem_map.mp hx
    obtain ⟨r, hr, rfl⟩ := Multiset.mem_map.mp hjoined
    show e.2.TrueOf E d.columns (Row.restrict (row.take _ r) _) e.1
    rw [Row.restrict_take]
    obtain ⟨n, b, hb, row', hrow', hreports⟩ :=
      (hu.mono hT).exists_row (fun b hb => (hdrafts T hT b hb).sound) hr
    exact ((hu.mono hT).trueOf (hdrafts T hT) hvalued hb hrow' hreports he d.columns).1
  refine (bindAll_yields (h.addSource (ht₀.trans ht) hsound hnew) hvs hwaits).mono
    fun d' t'' ht' hd' => ⟨⟨hd'.tracks, hgrows.trans (ht₀.trans ht) hd'.grows⟩, hd'.tables,
      fun T hT => ?_⟩
  rw [hd'.solutions hT, (h.sound.mono ((ht₀.trans ht).trans (ht'.trans hT))).answers_addSource hnew,
    Multiset.bind_assoc, Solution.join, solutions, Multiset.bind_map]
  refine Multiset.bind_congr fun row _ => ?_
  rw [← (hu.mono (ht'.trans hT)).solutions (hdrafts T (ht'.trans hT)) hvalued hunbound d.columns,
    Multiset.bind_assoc]
  have hcross : Source.joinNext E.domain [] row (u.source t₀.length,
      Block.sourceRows E.domain E.db T (u.source t₀.length)) =
        (Block.sourceRows E.domain E.db T (u.source t₀.length)).map
          (row.take (u.source t₀.length).produced) := rfl
  rw [hcross, Multiset.map_map, Multiset.bind_map]
  refine Multiset.bind_congr fun r _ => ?_
  simp only [Function.comp_apply, Row.restrict_take]
  rfl

/-- Names that are not bound yet are bound to what is given for them. -/
theorem bindAll_fresh {bs : Bindings} (hbs : (bs.map (·.1)).Nodup)
    (hfresh : ∀ e ∈ bs, d.bindings.lookup e.1 = none) :
    (bindAll d bs).Builds Fault.Any t fun d' _ => ∃ all, d' = { d with bindings := all } ∧
      ∀ name, all.lookup name = (bs.lookup name).or (d.bindings.lookup name) := by
  induction bs generalizing d with
  | nil => exact builds_pure ⟨d.bindings, rfl, fun _ => Option.none_or.symm⟩
  | cons e bs ih =>
    obtain ⟨name, b⟩ := e
    rw [List.map_cons, List.nodup_cons] at hbs
    rw [List.forall_mem_cons] at hfresh
    have hname : ∀ e ∈ bs, e.1 ≠ name := fun e he heq => hbs.1 (List.mem_map.mpr ⟨e, he, heq⟩)
    have hlookup : d.bindings.lookup name = none := hfresh.1
    rw [bindAll, bind, hlookup]
    have hothers : ∀ e ∈ bs, (d.setBinding name b).bindings.lookup e.1 = none := by
      intro e he
      rw [setBinding, Bindings.lookup_insert, if_neg (hname e he), hfresh.2 e he]
    refine (ih hbs.2 hothers).mono fun d' _ _ hd' => ?_
    obtain ⟨all, rfl, hall⟩ := hd'
    refine ⟨all, rfl, fun x => ?_⟩
    rw [hall x, setBinding, Bindings.lookup_insert, List.lookup_cons]
    by_cases hx : x = name
    · subst hx
      have hnone : bs.lookup x = none := List.lookup_eq_none_iff.mpr fun e he =>
        bne_iff_ne.mpr (Ne.symm (hname e he))
      rw [hnone, if_pos rfl, beq_self_eq_true]
      rfl
    · rw [if_neg hx, beq_false_of_ne hx]

/-- A union of drafts alone has the texts of all their rows. -/
theorem addUnion_texts (ht₀ : t₀ <+: t) (htaken : t₀.length < t.length) {branches : List Draft}
    (hbranches : ∀ b ∈ branches, b.Sound t ∧ ∀ v ∈ b.vars, t₀.length < v) :
    (empty.addUnion t₀.length branches).Builds Fault.Any t fun d t' =>
      (∀ name b, b ∈ branches → b.bindings.lookup name ≠ none → ∃ v, d.bindings.lookup name =
        some (UnionDraft.binding t₀.length (branches.map (·.bindings.lookup name)) v)) ∧
      ∀ T, t' <+: T → (d.rowsIn E T).map (d.text E) =
        (branches.map fun b => (b.rowsIn E T).map (b.text E)).sum := by
  refine (UnionDraft.addNames_collects (E := E) htaken hbranches).of_excluded.bind
    fun u t' ht hu => ?_
  obtain ⟨⟨outs, hu⟩, honce, hunbound⟩ := hu
  have hsource := sound_empty.addBranches (ht₀.trans ht) (Nat.lt_of_lt_of_le htaken ht.length_le)
    hu.sound
  refine (bindAll_fresh honce fun _ _ => rfl).mono fun d t'' ht' hd => ?_
  obtain ⟨all, rfl, hall⟩ := hd
  have hlookup : ∀ name, all.lookup name = u.bindings.lookup name := fun name =>
    (hall name).trans Option.or_none
  refine ⟨fun name b hb hname => ?_, fun T hT => ?_⟩
  · have hbound : name ∈ u.bindings.map (·.1) := by_contra fun hnot =>
      hname (hunbound b hb name hnot)
    obtain ⟨e, he, heq⟩ := List.mem_map.mp hbound
    obtain ⟨c, hc⟩ := Option.isSome_iff_exists.mp
      (List.lookup_isSome_iff.mpr ⟨e, he, by simp [heq]⟩ : (u.bindings.lookup name).isSome)
    obtain ⟨o, -, ho⟩ := hu.exists_output (mem_of_lookup hc)
    obtain ⟨rfl, rfl⟩ := Prod.mk.inj ho
    exact ⟨o.2, (hlookup _).trans hc⟩
  · have hrows : (empty.addSource (u.source t₀.length)).rowsIn E T =
        (Block.sourceRows E.domain E.db T (u.source t₀.length)).map
          (Row.null.take (u.source t₀.length).produced) := by
      rw [rowsIn, sound_empty.rows_addSource fun _ _ hmem => absurd hmem List.not_mem_nil]
      exact Multiset.singleton_bind _ _
    show ((empty.addSource (u.source t₀.length)).rowsIn E T).map _ = _
    rw [hrows, Multiset.map_map, ← Multiset.bind_singleton,
      (hu.mono (ht'.trans hT)).bind_sourceRows
        (fun b hb => (hbranches b hb).1.mono (ht.trans (ht'.trans hT)))
        (f := fun b row => {b.text E row})
        fun n b hb row _ r hr => congrArg _ (funext fun name => ?_)]
    · simp only [Multiset.bind_singleton]
    · show (all.lookup name).bind _ = _
      rw [hlookup name]
      cases hc : u.bindings.lookup name with
      | none =>
        have hnone : b.bindings.lookup name = none := by
          refine hunbound b (List.mem_of_getElem? hb) name fun hmem => ?_
          obtain ⟨e, he, heq⟩ := List.mem_map.mp hmem
          exact absurd heq.symm (bne_iff_ne.mp (List.lookup_eq_none_iff.mp hc e he))
        rw [text, hnone]
        rfl
      | some c =>
        obtain ⟨o, ho, heq⟩ := hu.exists_output (mem_of_lookup hc)
        obtain ⟨rfl, rfl⟩ := Prod.mk.inj heq
        have hproduced : o.2 ∈ (u.source t₀.length).produced :=
          List.mem_cons_of_mem _ (hu.covered o ho)
        exact (Row.take_of_mem hproduced).trans (hr.texts o ho)

end Draft

end VirtualGraph
