import VirtualGraph.Proofs.Draft.Meaning
import VirtualGraph.Proofs.Draft.Sources

/-!
# Answers of left joins

A left join extends each solution of a draft by the solutions of a nested draft that are matched
with it, or leaves it as it is if there are none. Two solutions are matched if they agree on the
query variables of the left side and the condition is true on what it sees of them. It sees the
query variables of the left side as the draft has them, and only the others as the nested draft has
them.

Where a solution of the draft and a matched one disagree on another query variable, the row is lost:
it counts as a match for the left join, but not for what the left join is joined with.
-/

namespace VirtualGraph

namespace Binding

variable {E : Setting} {columns : ColumnIndex} {vs : List Variable} {row : Row String}
variable {name : String} {b : Binding}

theorem termOf_padded : b.padded.termOf E columns row name = b.termOf E columns row name := by
  cases b <;> rfl

/-- Bound to a variable of the block. -/
def IsValue : Binding → Prop
  | .value _ _ _ _ => True
  | .term _ => False

theorem TrueOf.padded (h : b.TrueOf E columns row name) : b.padded.TrueOf E columns row name := by
  cases b with
  | term b => exact h
  | value v shape nullable escaped =>
    exact ⟨h.1, fun hnull => absurd hnull.symm Bool.false_ne_true, h.2.2⟩

/-- A padded value is true where it is null. -/
theorem IsValue.trueOf_null (hb : b.IsValue) (hvalued : E.valued name) :
    b.padded.TrueOf E columns Row.null name := by
  cases b with
  | term b => exact hb.elim
  | value v shape nullable escaped =>
    refine ⟨hvalued, fun hnull => absurd hnull.symm Bool.false_ne_true, fun _ htext => ?_⟩
    cases htext

theorem IsValue.termOf_null (hb : b.IsValue) : b.termOf E columns Row.null name = none := by
  cases b with
  | term b => exact hb.elim
  | value v shape nullable escaped => rfl

theorem IsValue.readsFrom (hb : b.IsValue) (h : b.ReadsFrom [] vs) (columns : ColumnIndex) :
    b.ReadsFrom columns vs := by
  cases b with
  | term b => exact hb.elim
  | value v shape nullable escaped => exact h

theorem ReadsFrom.padded (h : b.ReadsFrom columns vs) : b.padded.ReadsFrom columns vs := by
  cases b <;> exact h

end Binding

namespace Draft

open DraftBuilder

variable {E : Setting} {t t₀ T : VariableTable} {d nested : Draft} {vs : List Variable}
variable {names : List String} {bs : Bindings}

/-! ### Binding what may be null -/

/-- On a query variable of the left side, all answers agree with the term that is bound to it. -/
def Settled (E : Setting) (t : VariableTable) (vs : List Variable) (names : List String) (d : Draft)
    (name : String) (b : Binding) : Prop :=
  ∀ T, t <+: T → ∀ x ∈ d.answers E T vs, name ∈ names →
    Solution.Agree (x.1 name) (b.termOf E d.columns x.2 name)

open Classical in
/-- A binding that agrees with the earlier one needs no condition. -/
theorem bindAgreed_yields {name : String} {b : Binding} (h : d.Tracks E t) (hvs : vs ⊆ d.vars)
    (hb : d.Waits E t vs name b) (hsettled : d.Settled E t vs names name b) :
    (d.bindAgreed names name b).Builds Fault.Excluded t (d.Yields E t vs fun a row =>
      a.combine (.single name (b.termOf E d.columns row name))) := by
  unfold bindAgreed
  split
  · rename_i existing hcontains hlookup
    have hmem := mem_of_lookup hlookup
    have hexisting := h.sound.bindings _ hmem
    have hsolution : ∀ row, d.solution E row name = existing.termOf E d.columns row name :=
      fun row => by rw [solution, hlookup, Option.bind_some]
    have hagree : ∀ T, t <+: T → ∀ row ∈ d.rowsIn E T,
        Solution.Agree (d.solution E row name) (b.termOf E d.columns row name) := by
      intro T hT row hrow
      rw [← termOf_restrict hb.readsFrom]
      exact hsettled T hT _ (Multiset.mem_map_of_mem _ hrow) (List.contains_iff_mem.mp hcontains)
    refine ((merge_builds h.sound hexisting hb.inScope).and
      (merge_carries (E := E) h.sound hexisting hb.inScope)).bind fun r t' ht hr => builds_pure ?_
    obtain ⟨d', merged⟩ := r
    obtain ⟨⟨⟨hsound, hgrows⟩, hmerged⟩, hsame, hcarries⟩ := hr
    have hvars : d.vars = d.vars := rfl
    refine h.yields_setBinding ht hvs hb.readsFrom hvars (fun T hT => ?_)
      (hsound.setBinding name hmerged) hgrows hsame fun T hT => ?_
    · exact (Multiset.filter_eq_self.mpr (hagree T hT)).symm
    · refine (hcarries T hT).mono fun row hrow row' _ _ hr => ?_
      have hT := ht.trans hT
      have hag := hagree T hT row hrow
      rw [hsolution] at hag ⊢
      exact hr name (h.faithful T hT row hrow _ hmem) ((trueOf_restrict hb.readsFrom).mp
        (hb.true T hT _ (Multiset.mem_map_of_mem _ hrow))) hag
  · exact bind_yields h hvs hb

/-- Binding the query variables of a nested draft combines each answer with what they come to. -/
theorem bindOptional_yields (h : d.Tracks E t) (hvs : vs ⊆ d.vars) (honce : (bs.map (·.1)).Nodup)
    (hbs : ∀ e ∈ bs, d.Waits E t vs e.1 e.2.padded)
    (hsettled : ∀ e ∈ bs, d.Settled E t vs names e.1 e.2) :
    (bindOptional names d bs).Builds Fault.Excluded t (d.Yields E t vs fun a row =>
      (bs.solutions E d.columns row).bind a.combine) := by
  induction bs generalizing d t with
  | nil =>
    refine builds_pure ((yields_self h).congr (List.prefix_refl t) fun T _ x _ => ?_)
    rw [Bindings.solutions, Multiset.singleton_bind, Solution.combine_empty_right]
  | cons e bs ih =>
    obtain ⟨name, b⟩ := e
    rw [List.forall_mem_cons] at hbs hsettled
    rw [List.map_cons, List.nodup_cons] at honce
    have hfirst : d.Settled E t vs names name b.padded := fun T hT x hx hname => by
      rw [Binding.termOf_padded]
      exact hsettled.1 T hT x hx hname
    rw [bindOptional_cons]
    refine (bindAgreed_yields h hvs hbs.1 hfirst).bind fun d' t' ht hd' => ?_
    refine (ih hd'.tracks (List.Subset.trans hvs hd'.grows.vars) honce.2
      (fun e he => (hbs.2 e he).of_yields ht hd') fun e he T hT x hx hname => ?_).mono
      fun d'' t'' ht' hd'' => ?_
    · -- The other query variables are not touched by this binding.
      rw [hd'.answers T hT] at hx
      obtain ⟨y, hy, hx⟩ := Multiset.mem_bind.mp hx
      obtain ⟨a, ha, rfl⟩ := Multiset.mem_map.mp hx
      obtain ⟨-, rfl⟩ := Solution.mem_combine.mp ha
      have hmem : e.1 ∈ bs.map (·.1) := List.mem_map_of_mem he
      have hne : e.1 ≠ name := fun heq => honce.1 (heq ▸ hmem)
      have hkept : y.1.merge (Solution.single name (b.padded.termOf E d.columns y.2 name)) e.1 =
          y.1 e.1 := by
        show (y.1 e.1).or (if e.1 = name then _ else none) = _
        rw [if_neg hne, Option.or_none]
      rw [hd'.columns]
      show Solution.Agree (y.1.merge (Solution.single name _) e.1) (e.2.termOf E d.columns y.2 e.1)
      rw [hkept]
      exact hsettled.2 e he T (ht.trans hT) y hy hname
    · refine (hd'.trans ht ht' hd'').congr (ht.trans ht') fun T _ x _ => ?_
      rw [Solution.combine_bind_combine, hd'.columns, Bindings.solutions, Binding.termOf_padded]

/-! ### Exposing a nested draft -/

/-- A nested draft exposes the texts of all its query variables, under bindings to values. -/
theorem exposeAll_follows {outs : List (String × Variable)} {exposed : List Variable}
    {rest : Bindings} {b : Draft} (hb : b.Sound t) (hnested : nested.Sound t)
    (h : b.Follows E t outs (nested, exposed)) (houts : ∀ o ∈ outs, o.2 < t.length)
    (hcovered : ∀ o ∈ outs, o.2 ∈ exposed)
    (hrest : ∀ e ∈ rest, b.bindings.lookup e.1 = some e.2) :
    (exposeAll nested exposed rest).Builds Fault.Any t fun r t' => ∃ outs',
      (outs ⊆ outs' ∧ b.Follows E t' outs' (r.1, r.2.1) ∧ ∀ o ∈ outs', o.2 ∈ r.2.1) ∧
        (∀ x ∈ r.2.2, ∃ v c, (x.1, v) ∈ outs' ∧ b.bindings.lookup x.1 = some c ∧
          x.2 = .value v c.shape c.nullable c.escaped) ∧ r.2.2.map (·.1) = rest.map (·.1) := by
  induction rest generalizing nested exposed outs t with
  | nil =>
    exact builds_pure ⟨outs, ⟨List.Subset.refl _, h, hcovered⟩,
      fun _ hx => absurd hx List.not_mem_nil, rfl⟩
  | cons e rest ih =>
    obtain ⟨name, c⟩ := e
    rw [List.forall_mem_cons] at hrest
    obtain ⟨hlookup, hrest⟩ := hrest
    have hc : c.InScope nested.columns nested.vars :=
      (hb.bindings _ (mem_of_lookup hlookup)).mono (fun _ hk => h.columns ▸ hk) h.vars
    refine builds_get_bind <| builds_lift_bind
      (((Binding.toScalar_meets hnested.within hc).allow fun _ _ => trivial).and
        (c.toScalar_textOn E nested.columns)) fun x hx => builds_fresh_bind ?_
    have hsound := (hnested.mono (List.prefix_append t [⟨.derived, c.type t, c.nullable⟩])).assign
      hnested.fresh (by simp) hx.1
    refine (ih (hb.mono (List.prefix_append t _)) hsound
      (h.expose hb hnested houts hlookup hx.2) ?_ ?_ hrest).bind
      fun r t' _ hr => builds_pure ?_
    · intro o ho
      rw [List.length_append, List.length_singleton]
      obtain ho | ho := List.mem_append.mp ho
      · exact Nat.lt_succ_of_lt (houts o ho)
      · exact List.mem_singleton.mp ho ▸ Nat.lt_succ_self _
    · intro o ho
      refine mem_addVariables.mpr (.inl ?_)
      obtain ho | ho := List.mem_append.mp ho
      · exact List.mem_append_left _ (hcovered o ho)
      · obtain rfl := List.mem_singleton.mp ho
        exact List.mem_append_right _ List.mem_cons_self
    · obtain ⟨nested', exposed', bindings⟩ := r
      obtain ⟨outs', ⟨hkept, hfollows, hcovered'⟩, hvalues, hnames⟩ := hr
      rw [List.append_subset] at hkept
      refine ⟨outs', ⟨hkept.1, hfollows, hcovered'⟩, List.forall_mem_cons.mpr ⟨?_, hvalues⟩,
        congrArg (name :: ·) hnames⟩
      exact ⟨t.length, c, hkept.2 List.mem_cons_self, hlookup, rfl⟩

/-! ### The condition of a left join -/

/-- Conditions hold where the terms of bindings agree with a draft on given query variables. -/
def Decides (E : Setting) (d : Draft) (names : List String) (bs : Bindings) (cs : List Condition) :
    Prop :=
  ∀ row, d.Faithful E row → (∀ e ∈ bs, e.2.TrueOf E d.columns row e.1) →
    (Condition.AllHold E.domain row cs ↔ ∀ e ∈ bs, e.1 ∈ names →
      Solution.Agree (d.solution E row e.1) (e.2.termOf E d.columns row e.1))

theorem sharedConditions_decides (E : Setting) (d : Draft) (names : List String) (bs : Bindings) :
    (sharedConditions d names bs).Meets Fault.Any (d.Decides E names bs) := by
  induction bs with
  | nil =>
    intro row _ _
    exact iff_of_true (fun _ hc => absurd hc List.not_mem_nil) fun _ he =>
      absurd he List.not_mem_nil
  | cons e bs ih =>
    obtain ⟨name, b⟩ := e
    rw [sharedConditions]
    split
    · rename_i left hcontains hlookup
      have hname := List.contains_iff_mem.mp hcontains
      refine (Binding.equality_eval E d.columns left b).bind fun c hc => ih.bind
        fun cs hcs row hrow hbs => ?_
      rw [List.forall_mem_cons] at hbs
      have hsolution : d.solution E row name = left.termOf E d.columns row name := by
        rw [solution, hlookup, Option.bind_some]
      have hfirst := hc row name (hrow _ (mem_of_lookup hlookup)) hbs.1
      rw [Condition.AllHold, List.forall_mem_cons, List.forall_mem_cons, hfirst, hsolution]
      exact and_congr ⟨fun hag _ => hag, fun hag => hag hname⟩ (hcs row hrow hbs.2)
    · rename_i hother
      refine ih.mono fun cs hcs row hrow hbs => ?_
      rw [List.forall_mem_cons] at hbs
      have hagree : name ∈ names → Solution.Agree (d.solution E row name)
          (b.termOf E d.columns row name) := by
        intro hname
        refine .inl ?_
        cases hlookup : d.bindings.lookup name with
        | none => rw [solution, hlookup, Option.bind_none]
        | some left => exact absurd hlookup (hother left (List.contains_iff_mem.mpr hname))
      rw [hcs row hrow hbs.2, List.forall_mem_cons]
      exact (and_iff_right hagree).symm

/-! ### Exposed terms -/

/-- A nested draft exposes its terms under bindings to values. -/
structure Exposes (E : Setting) (T : VariableTable) (nested nested' : Draft)
    (exposed : List Variable) (bs : Bindings) (f : Row String → Row String) : Prop where
  rows : nested'.rowsIn E T = (nested.rowsIn E T).map f
  terms : ∀ row ∈ nested.rowsIn E T, ∀ x ∈ bs, x.2.TrueOf E [] ((f row).restrict exposed) x.1 ∧
    x.2.termOf E [] ((f row).restrict exposed) x.1 = nested.solution E row x.1
  reads : ∀ x ∈ bs, x.2.ReadsFrom [] exposed
  values : ∀ x ∈ bs, x.2.IsValue
  names : ∀ x, x ∉ bs.map (·.1) → nested.bindings.lookup x = none

/-- A nested draft exposes all its query variables. -/
theorem exposeAll_exposes (h : nested.Tracks E t) (hvalued : ∀ name, E.valued name) :
    (exposeAll nested [] nested.bindings).Builds Fault.Excluded t fun r t' =>
      ((r.1.Sound t' ∧ nested.Grows t r.1) ∧ (r.2.1 ⊆ r.1.vars ∧ r.2.1.Nodup) ∧
        ∀ e ∈ r.2.2, e.2.InScope [] r.2.1) ∧ (r.2.2.map (·.1)).Nodup ∧
          ∀ T, t' <+: T → ∃ f, nested.Exposes E T r.1 r.2.1 r.2.2 f := by
  have hempty : ([] : List Variable) ⊆ nested.vars := List.nil_subset _
  refine ((exposeAll_builds h.sound hempty List.nodup_nil h.sound.bindings).and
    (exposeAll_follows h.sound h.sound (follows_self E t nested)
      (fun _ ho => absurd ho List.not_mem_nil) (fun _ ho => absurd ho List.not_mem_nil)
      fun e he => h.sorted.lookup_eq he)).mono fun r t' ht hr => ?_
  obtain ⟨nested', exposed, bindings⟩ := r
  obtain ⟨⟨hsound, ⟨hexposed, honce, -⟩, hbindings⟩, outs, ⟨-, hfollows, -⟩, houtputs, hnames⟩ := hr
  refine ⟨⟨hsound, ⟨hexposed, honce⟩, hbindings⟩, hnames ▸ h.sorted.nodup, fun T hT => ?_⟩
  obtain ⟨f, hrows, hf⟩ := hfollows.carries T hT
  refine ⟨f, hrows, fun row hrow x hx => ?_, fun x hx => ?_, fun x hx => ?_, fun x hx => ?_⟩
  · obtain ⟨v, c, ho, hlookup, hvalue⟩ := houtputs x hx
    rw [hvalue]
    refine (h.faithful T (ht.trans hT) row hrow).trueOf_output h.sound (hvalued x.1)
      (hlookup ▸ Binding.allows_self fun v hv => ?_) ((hf row hrow).2 _ ho) []
    rw [Row.restrict_of_mem (hfollows.indices _ ho c hlookup hv)]
    exact (hf row hrow).1 v ((h.sound.bindings _ (mem_of_lookup hlookup)).indices hv)
  · exact (hbindings x hx).readsFrom fun _ he => absurd he List.not_mem_nil
  · obtain ⟨v, c, -, -, hvalue⟩ := houtputs x hx
    rw [hvalue]
    trivial
  · rw [hnames] at hx
    cases hlookup : nested.bindings.lookup x with
    | none => rfl
    | some c => exact absurd (List.mem_map_of_mem (mem_of_lookup hlookup)) hx

namespace Exposes

variable {nested' : Draft} {exposed : List Variable} {f : Row String → Row String}
variable {row joined : Row String}

variable (h : nested.Exposes E T nested' exposed bs f)

include h

theorem termsOn (hrow : row ∈ nested.rowsIn E T) (hjoined : ∀ v ∈ exposed, joined v = f row v)
    {x : String × Binding} (hx : x ∈ bs) (columns : ColumnIndex) :
    x.2.TrueOf E columns joined x.1 ∧
      x.2.termOf E columns joined x.1 = nested.solution E row x.1 := by
  have hcolumns : ∀ (k : Nat × String) v, List.lookup k ([] : ColumnIndex) = some v →
      columns.lookup k = some v := fun _ _ hk => by cases hk
  have hkept : ∀ v ∈ exposed, joined v = (f row).restrict exposed v := fun v hv => by
    rw [Row.restrict_of_mem hv, hjoined v hv]
  obtain ⟨htrue, hterm⟩ := h.terms row hrow x hx
  exact ⟨(h.reads x hx).trueOf hcolumns hkept htrue,
    ((h.reads x hx).termOf_eq hcolumns hkept).trans hterm⟩

theorem solution_eq_none {x : String} (hx : x ∉ bs.map (·.1)) (row : Row String) :
    nested.solution E row x = none := by
  rw [solution, h.names x hx, Option.bind_none]

/-- The bindings make the solution that the nested draft has on a row. -/
theorem solutions_restrict (hrow : row ∈ nested.rowsIn E T) (columns : ColumnIndex) :
    bs.solutions E columns ((f row).restrict exposed) = {nested.solution E row} :=
  Bindings.solutions_eq_singleton
    (fun _ hx => (h.termsOn hrow (fun _ hv => Row.restrict_of_mem hv) hx columns).2)
    fun _ hx => h.solution_eq_none hx row

theorem solutions_null (columns : ColumnIndex) :
    bs.solutions E columns Row.null = {Solution.empty} :=
  Bindings.solutions_eq_singleton (fun x hx => (h.values x hx).termOf_null) fun _ _ => rfl

end Exposes

/-! ### Attached drafts -/

/-- Two solutions as the condition of a left join sees them: the query variables of the left side
that the draft binds have the terms that they have there, if any. -/
def view (d : Draft) (names : List String) (a b : Solution) : Solution := fun x =>
  if x ∈ names ∧ (d.bindings.lookup x).isSome then a x else b x

/-- The condition of a left join is true on two solutions. -/
def Meets (E : Setting) (d : Draft) (names : List String) (condition : Option Expression)
    (a b : Solution) : Prop :=
  BoundTree.meets E.meaning condition (d.view names a b)

/-- A left join with a nested draft, whose conditions are those on shared query variables and that
of an expression. -/
structure Attaches (E : Setting) (t₀ t : VariableTable) (d : Draft) (names : List String)
    (nested : Draft) (condition : Option Expression) (r : Source × Bindings × ExpressionScope)
    (nested' : Draft) (exposed : List Variable) (shared own : List Condition) : Prop where
  source : r.1 = .leftJoin (nested'.toBlock exposed) (shared ++ own) exposed
  columns : r.2.2.columns = d.columns
  scope : r.2.2.bindings = d.bindings.restrict names ++ r.2.1
  reads : Condition.referencedAll (shared ++ own) ⊆ d.vars ++ exposed
  decides : d.Decides E names r.2.1 shared
  conditions : ∀ e ∈ condition, ∃ c, e.condition r.2.2 = .ok c
  holds : ∀ row, Condition.AllHold E.domain row own ↔
    ∀ e ∈ condition, ∀ c, e.condition r.2.2 = .ok c → c.eval E.domain row = .yes
  sound : nested'.Sound t
  covered : exposed ⊆ nested'.vars
  once : exposed.Nodup
  later : ∀ v ∈ exposed, t₀.length ≤ v
  bindings : ∀ b ∈ r.2.1, b.2.InScope [] exposed
  names : (r.2.1.map (·.1)).Nodup
  exposes : ∀ T, t <+: T → ∃ f, nested.Exposes E T nested' exposed r.2.1 f

theorem leftJoinSource_attaches (h : d.Sound t₀) (ht₀ : t₀ <+: t) (hnested : nested.Tracks E t)
    (hlater : empty.Grows t₀ nested) (hvalued : ∀ name, E.valued name) (names : List String)
    (condition : Option Expression) :
    (d.leftJoinSource names nested condition).Builds Fault.Any t fun r t' =>
      ∃ nested' exposed shared own,
        d.Attaches E t₀ t' names nested condition r nested' exposed shared own := by
  refine (exposeAll_exposes hnested hvalued).of_excluded.bind fun r t' ht hr => ?_
  obtain ⟨nested', exposed, bindings⟩ := r
  obtain ⟨⟨⟨hnested', hgrows⟩, ⟨hexposed, honce⟩, hbindings⟩, hnames, hexposes⟩ := hr
  refine builds_lift_bind ((h.shared_meets names hbindings).of_excluded.and
    (sharedConditions_decides E d names bindings)) fun shared hshared => builds_get_bind ?_
  have hattaches : ∀ (scope : ExpressionScope) (own : List Condition), scope.columns = d.columns →
      scope.bindings = d.bindings.restrict names ++ bindings →
      Condition.referencedAll own ⊆ d.vars ++ exposed →
      (∀ e ∈ condition, ∃ c, e.condition scope = .ok c) →
      (∀ row, Condition.AllHold E.domain row own ↔
        ∀ e ∈ condition, ∀ c, e.condition scope = .ok c → c.eval E.domain row = .yes) →
      d.Attaches E t₀ t' names nested condition (.leftJoin (nested'.toBlock exposed)
        (shared ++ own) exposed, bindings, scope) nested' exposed shared own := by
    intro scope own hcolumns hscope hown hconditions hholds
    refine ⟨rfl, hcolumns, hscope, ?_, hshared.2, hconditions, hholds, hnested', hexposed, honce,
      fun v hv => ?_, hbindings, hnames, hexposes⟩
    · rw [Condition.referencedAll_append]
      exact List.append_subset.mpr ⟨hshared.1, hown⟩
    · exact ((hlater.trans ht₀ hgrows).fresh v (hexposed hv)).resolve_left List.not_mem_nil
  cases condition with
  | none =>
    refine builds_pure ⟨_, _, _, _, hattaches _ [] rfl rfl (List.nil_subset _)
      (fun _ he => absurd he (Option.not_mem_none _)) fun row => ?_⟩
    exact iff_of_true (fun _ hc => absurd hc List.not_mem_nil)
      fun _ he => absurd he (Option.not_mem_none _)
  | some e =>
    refine builds_lift_bind (((Expression.condition_meets (h.joinScope t' names hbindings) e).allow
      fun _ _ => trivial).and_eq_ok) fun c hc => builds_pure
        ⟨_, _, _, _, hattaches _ [c] rfl rfl ?_ (fun e' he' => ?_) fun row => ?_⟩
    · rw [Condition.referencedAll, Condition.referencedAll, List.append_nil]
      exact hc.2
    · cases he'
      exact ⟨c, hc.1⟩
    · rw [Condition.AllHold, List.forall_mem_singleton]
      constructor
      · rintro hyes e' ⟨⟩ c' hc'
        obtain rfl : c = c' := Except.ok.inj (hc.1.symm.trans hc')
        exact hyes
      · exact fun hall => hall e rfl c hc.1

namespace Attaches

variable {condition : Option Expression} {r : Source × Bindings × ExpressionScope}
variable {nested' : Draft} {exposed : List Variable} {shared own : List Condition}
variable {row row' : Row String} {f : Row String → Row String}

section

variable (h : d.Attaches E t₀ t names nested condition r nested' exposed shared own)
variable (hd : d.Sound t₀)

include h hd

theorem fresh : ∀ v ∈ exposed, v ∉ d.vars := fun v hv hmem =>
  Nat.not_lt_of_le (h.later v hv) (hd.taken v hmem)

/-- A pair of rows has the solution of its left row. -/
theorem solution_take (values : Row String) :
    d.solution E (row.take exposed values) = d.solution E row :=
  hd.solution_congr fun v hv => Row.take_of_not_mem fun hmem => h.fresh hd v hmem hv

theorem faithful_take (hrow : d.Faithful E row) (values : Row String) :
    d.Faithful E (row.take exposed values) :=
  hd.faithful_congr (fun v hv => Row.take_of_not_mem fun hmem => h.fresh hd v hmem hv) hrow

variable (hf : nested.Exposes E T nested' exposed r.2.1 f)

include hf

/-- The condition of a left join sees on a pair of rows what it sees of their solutions. -/
theorem shows (hrow : d.Faithful E row) (hrow' : row' ∈ nested.rowsIn E T) (x : String) :
    r.2.2.Shows E (row.take exposed (f row'))
      (d.view names (d.solution E row) (nested.solution E row')) x := by
  have hbinding : r.2.2.binding? x =
      ((d.bindings.restrict names).lookup x).or (r.2.1.lookup x) := by
    rw [ExpressionScope.binding?, h.scope, List.lookup_append]
  have hright : ((d.bindings.restrict names).lookup x = none) →
      ¬(x ∈ names ∧ (d.bindings.lookup x).isSome) →
      r.2.2.Shows E (row.take exposed (f row'))
        (d.view names (d.solution E row) (nested.solution E row')) x := by
    intro hnone hview
    rw [hnone, Option.none_or] at hbinding
    have hterm : d.view names (d.solution E row) (nested.solution E row') x =
        nested.solution E row' x := if_neg hview
    cases hlookup : r.2.1.lookup x with
    | none =>
      refine .of_none (hbinding.trans hlookup)
        (hterm.trans (hf.solution_eq_none (fun hmem => ?_) _))
      obtain ⟨b, hb, rfl⟩ := List.mem_map.mp hmem
      exact absurd rfl (bne_iff_ne.mp (List.lookup_eq_none_iff.mp hlookup b hb))
    | some b =>
      obtain ⟨htrue, hsame⟩ :=
        hf.termsOn hrow' (fun _ hv => Row.take_of_mem hv) (mem_of_lookup hlookup) r.2.2.columns
      exact .of_some (hbinding.trans hlookup) (hterm.trans hsame.symm) htrue
  by_cases hx : x ∈ names
  · have hrestrict : (d.bindings.restrict names).lookup x = d.bindings.lookup x :=
      Bindings.lookup_restrict hx
    cases hlookup : d.bindings.lookup x with
    | none => exact hright (hrestrict.trans hlookup) fun hview => by simp [hlookup] at hview
    | some b =>
      rw [hrestrict, hlookup, Option.some_or] at hbinding
      have hterm : d.view names (d.solution E row) (nested.solution E row') x =
          d.solution E row x := if_pos ⟨hx, by rw [hlookup]; rfl⟩
      refine .of_some hbinding ?_ ?_
      · rw [hterm, ← h.solution_take hd (f row'), solution, hlookup, h.columns, Option.bind_some]
      · rw [h.columns]
        exact h.faithful_take hd hrow (f row') _ (mem_of_lookup hlookup)
  · exact hright (Bindings.lookup_restrict_of_not_mem hx) fun hview => hx hview.1

/-- The conditions of a left join are true on a pair of rows whose solutions are matched. -/
theorem allHold_iff (hrow : d.Faithful E row) (hrow' : row' ∈ nested.rowsIn E T)
    (hsteady : Solution.AgreeOn names (d.solution E row) (nested.solution E row') →
      ∀ e ∈ condition, e.Steady E.rendering
        (d.view names (d.solution E row) (nested.solution E row'))) :
    Condition.AllHold E.domain (row.take exposed (f row')) (shared ++ own) ↔
      Solution.AgreeOn names (d.solution E row) (nested.solution E row') ∧
        d.Meets E names condition (d.solution E row) (nested.solution E row') := by
  have hterms : ∀ e ∈ r.2.1, _ := fun e he =>
    hf.termsOn hrow' (fun v hv => (Row.take_of_mem hv : row.take exposed _ v = _)) he d.columns
  have hshared : Condition.AllHold E.domain (row.take exposed (f row')) shared ↔
      Solution.AgreeOn names (d.solution E row) (nested.solution E row') := by
    rw [h.decides _ (h.faithful_take hd hrow _) fun e he => (hterms e he).1, h.solution_take hd]
    constructor
    · intro hall x hx
      by_cases hmem : x ∈ r.2.1.map (·.1)
      · obtain ⟨e, he, rfl⟩ := List.mem_map.mp hmem
        rw [← (hterms e he).2]
        exact hall e he hx
      · exact .inr (.inl (hf.solution_eq_none hmem row'))
    · intro hall e he hx
      rw [(hterms e he).2]
      exact hall e.1 hx
  rw [Condition.AllHold, List.forall_mem_append]
  refine (and_congr_left' hshared).trans (and_congr_right fun hagree => (h.holds _).trans ?_)
  refine forall₂_congr fun e he => ?_
  obtain ⟨c, hc⟩ := h.conditions e he
  have hyes := Expression.condition_yes_iff (hsteady hagree e he)
    (fun name _ => h.shows hd hf hrow hrow' name) hc
  exact ⟨fun hall => hyes.mp (hall c hc), fun htruth c' hc' =>
    Except.ok.inj (hc.symm.trans hc') ▸ hyes.mpr htruth⟩

end

end Attaches

/-! ### Left joins -/

section Matches

variable {nested' : Draft} {exposed : List Variable} {f : Row String → Row String}
variable {on : List Condition} {p : Solution → Solution → Prop} {row : Row String}

open Classical in
/-- The rows of a nested draft whose solutions are matched with a given one. -/
noncomputable def matched (E : Setting) (T : VariableTable) (names : List String)
    (p : Solution → Solution → Prop) (nested : Draft) (a : Solution) : Multiset (Row String) :=
  (nested.rowsIn E T).filter fun row =>
    Solution.AgreeOn names a (nested.solution E row) ∧ p a (nested.solution E row)

open Classical in
theorem map_matched (a : Solution) : (nested.matched E T names p a).map (nested.solution E) =
    Solution.matched names p (nested.solutions E T) a := by
  rw [matched, Solution.matched, solutions, Multiset.filter_map]
  rfl

/-- Conditions are true on the pairs of rows whose solutions are matched. -/
def Matches (E : Setting) (T : VariableTable) (d : Draft) (names : List String)
    (p : Solution → Solution → Prop) (nested : Draft) (exposed : List Variable)
    (f : Row String → Row String) (on : List Condition) : Prop :=
  ∀ row ∈ d.rowsIn E T, ∀ row' ∈ nested.rowsIn E T,
    (Condition.AllHold E.domain (row.take exposed (f row')) on ↔
      Solution.AgreeOn names (d.solution E row) (nested.solution E row') ∧
        p (d.solution E row) (nested.solution E row'))

namespace Exposes

variable (h : nested.Exposes E T nested' exposed bs f) (hd : d.Sound T)
variable (hnew : ∀ v ∈ exposed, v ∉ d.vars) (hmatches : d.Matches E T names p nested exposed f on)
variable (hnested : nested'.Sound T) (hexposed : exposed ⊆ nested'.vars)

include h hmatches hnested hexposed

open Classical in
/-- The matches of a row are the rows of the nested draft that are matched with it. -/
theorem matching_eq (hrow : row ∈ d.rowsIn E T) :
    Source.matching E.domain [] on row (.leftJoin (nested'.toBlock exposed) on exposed,
      (nested'.toBlock exposed).rows E.domain E.db T) =
        (nested.matched E T names p (d.solution E row)).map
          fun row' => row.take exposed (f row') := by
  have htake : (row.take exposed) ∘ ((·.restrict exposed) ∘ f) =
      fun row' => row.take exposed (f row') :=
    funext fun _ => Row.take_restrict
  rw [Source.matching, hnested.rows_toBlock hexposed, ← rowsIn, h.rows, Multiset.map_map,
    Multiset.map_map]
  show Multiset.filter _ (Multiset.map ((row.take exposed) ∘ ((·.restrict exposed) ∘ f)) _) = _
  rw [htake, Multiset.filter_map]
  exact congrArg _ (Multiset.filter_congr fun row' hrow' => hmatches row hrow row' hrow')

include hd hnew

/-- The answers of a draft that is left-joined with a nested draft. -/
theorem answers_eq :
    (d.addSource (.leftJoin (nested'.toBlock exposed) on exposed)).answers E T exposed =
      (d.solutions E T).bind fun a =>
        if (nested.matched E T names p a).card = 0 then {(a, Row.null)}
        else (nested.matched E T names p a).map fun row => (a, (f row).restrict exposed) := by
  have hanswers : (d.addSource (.leftJoin (nested'.toBlock exposed) on exposed)).answers E T
      exposed = (d.rowsIn E T).bind fun row => (Source.outer E.domain [] row
        (.leftJoin (nested'.toBlock exposed) on exposed,
          (nested'.toBlock exposed).rows E.domain E.db T)).map fun joined =>
            (d.solution E row, joined.restrict exposed) :=
    hd.answers_addSource hnew
  rw [hanswers, solutions, Multiset.bind_map]
  refine Multiset.bind_congr fun row hrow => ?_
  have hmatching := h.matching_eq hmatches hnested hexposed hrow
  simp only [Source.outer, Source.on?, hmatching, Multiset.card_map]
  split
  · rw [Multiset.map_singleton]
    refine congrArg (fun r => ({(d.solution E row, r)} : Multiset (Solution × Row String))) ?_
    exact Row.restrict_take.trans (funext fun v => by simp [Row.restrict, Row.take])
  · rw [Multiset.map_map]
    refine Multiset.map_congr rfl fun row' _ => ?_
    exact congrArg (Prod.mk _) Row.restrict_take

open Classical in
/-- The terms of the right side stand for the values of an answer, and agree with those of its left
row on the query variables of the left side. -/
theorem termsOn_answer (hvalued : ∀ name, E.valued name) {x : Solution × Row String} (hx : x ∈
    (d.addSource (.leftJoin (nested'.toBlock exposed) on exposed)).answers E T exposed)
    {b : String × Binding} (hb : b ∈ bs) : b.2.padded.TrueOf E d.columns x.2 b.1 ∧
      (b.1 ∈ names → Solution.Agree (x.1 b.1) (b.2.termOf E d.columns x.2 b.1)) := by
  rw [h.answers_eq hd hnew hmatches hnested hexposed] at hx
  obtain ⟨a, -, hx⟩ := Multiset.mem_bind.mp hx
  split at hx
  · obtain rfl := Multiset.mem_singleton.mp hx
    refine ⟨(h.values b hb).trueOf_null (hvalued b.1), fun _ => .inr (.inl ?_)⟩
    exact (h.values b hb).termOf_null
  · obtain ⟨row, hrow, rfl⟩ := Multiset.mem_map.mp hx
    obtain ⟨hrow, hagree, -⟩ := Multiset.mem_filter.mp hrow
    obtain ⟨htrue, hterm⟩ := h.termsOn hrow (fun _ hv => Row.restrict_of_mem hv) hb d.columns
    refine ⟨htrue.padded, fun hname => ?_⟩
    rw [hterm]
    exact hagree b.1 hname

open Classical in
/-- The answers of a left join, each with what the bindings of the nested draft come to. -/
theorem bind_answers :
    ((d.addSource (.leftJoin (nested'.toBlock exposed) on exposed)).answers E T exposed).bind
        (fun x => (bs.solutions E d.columns x.2).bind x.1.combine) =
      (d.solutions E T).bind (Solution.optional names p (nested.solutions E T)) := by
  rw [h.answers_eq hd hnew hmatches hnested hexposed, Multiset.bind_assoc]
  refine Multiset.bind_congr fun a _ => ?_
  rw [Solution.optional, ← map_matched, Multiset.card_map]
  split
  · rw [Multiset.singleton_bind, h.solutions_null, Multiset.singleton_bind,
      Solution.combine_empty_right]
  · rw [Multiset.bind_map, Multiset.bind_map]
    refine Multiset.bind_congr fun row hrow => ?_
    rw [h.solutions_restrict (Multiset.mem_of_mem_filter hrow), Multiset.singleton_bind]

end Exposes

end Matches

/-- The condition of a left join is steady on all solutions of two drafts that agree. -/
def SteadyOn (E : Setting) (t : VariableTable) (d : Draft) (names : List String) (nested : Draft)
    (condition : Option Expression) : Prop :=
  ∀ T, t <+: T → ∀ a ∈ d.solutions E T, ∀ b ∈ nested.solutions E T, Solution.AgreeOn names a b →
    ∀ e ∈ condition, e.Steady E.rendering (d.view names a b)

theorem Attaches.matches {condition : Option Expression} {r : Source × Bindings × ExpressionScope}
    {nested' : Draft} {exposed : List Variable} {shared own : List Condition}
    {f : Row String → Row String}
    (h : d.Attaches E t₀ t names nested condition r nested' exposed shared own)
    (hd : d.Tracks E t₀) (hT : t <+: T) (ht₀ : t₀ <+: t)
    (hf : nested.Exposes E T nested' exposed r.2.1 f)
    (hsteady : d.SteadyOn E t names nested condition) :
    d.Matches E T names (d.Meets E names condition) nested exposed f (shared ++ own) :=
  fun row hrow _ hrow' =>
    h.allHold_iff hd.sound hf (hd.faithful T (ht₀.trans hT) row hrow) hrow' fun hagree =>
      hsteady T hT _ (Multiset.mem_map_of_mem _ hrow) _ (Multiset.mem_map_of_mem _ hrow') hagree

/-- The query variables of the nested draft are bound in a draft with the columns of the left side,
if its answers are among those of the left join. -/
theorem Attaches.yields {condition : Option Expression} {r : Source × Bindings × ExpressionScope}
    {nested' d₁ : Draft} {exposed : List Variable} {shared own : List Condition}
    (h : d.Attaches E t₀ t names nested condition r nested' exposed shared own)
    (hd : d.Tracks E t₀) (ht₀ : t₀ <+: t) (hvalued : ∀ name, E.valued name)
    (hsteady : d.SteadyOn E t names nested condition) (hd₁ : d₁.Tracks E t)
    (hcolumns : d₁.columns = d.columns) (hvs : exposed ⊆ d₁.vars)
    (hanswers : ∀ T, t <+: T → ∀ x ∈ d₁.answers E T exposed,
      x ∈ (d.addSource (.leftJoin (nested'.toBlock exposed) (shared ++ own) exposed)).answers
        E T exposed) :
    (bindOptional names d₁ r.2.1).Builds Fault.Any t (d₁.Yields E t exposed fun a row =>
      (r.2.1.solutions E d.columns row).bind a.combine) := by
  obtain ⟨_, hfirst⟩ := h.exposes t (List.prefix_refl t)
  have hterms : ∀ b ∈ r.2.1, ∀ T, t <+: T → ∀ x ∈ d₁.answers E T exposed,
      b.2.padded.TrueOf E d₁.columns x.2 b.1 ∧
        (b.1 ∈ names → Solution.Agree (x.1 b.1) (b.2.termOf E d₁.columns x.2 b.1)) := by
    intro b hb T hT x hx
    obtain ⟨f, hf⟩ := h.exposes T hT
    rw [hcolumns]
    exact hf.termsOn_answer (hd.sound.mono (ht₀.trans hT)) (h.fresh hd.sound)
      (h.matches hd hT ht₀ hf hsteady) (h.sound.mono hT) h.covered hvalued (hanswers T hT x hx) hb
  rw [← hcolumns]
  refine (bindOptional_yields hd₁ hvs h.names
    (fun b hb => ⟨?_, ?_, fun T hT x hx => (hterms b hb T hT x hx).1⟩)
    fun b hb T hT x hx => (hterms b hb T hT x hx).2).of_excluded
  · exact ((h.bindings b hb).mono (fun _ hk => by cases hk) hvs).padded
  · exact ((hfirst.values b hb).readsFrom (hfirst.reads b hb) d₁.columns).padded

/-- A left join with a draft that was built after its left side extends each solution by those of
the draft that are matched with it. -/
theorem addLeftJoin_solutions {condition : Option Expression} (h : d.Tracks E t₀)
    (ht₀ : t₀ <+: t) (hnested : nested.Tracks E t) (hlater : empty.Grows t₀ nested)
    (hvalued : ∀ name, E.valued name) (hsteady : d.SteadyOn E t names nested condition) :
    (d.addLeftJoin names nested condition).Builds Fault.Any t fun d' t' =>
      (d'.Tracks E t' ∧ d.Grows t₀ d') ∧ d'.tables = d.tables ∧ ∀ T, t' <+: T →
        d'.solutions E T = (d.solutions E T).bind
          (Solution.optional names (d.Meets E names condition) (nested.solutions E T)) := by
  rw [addLeftJoin_eq]
  refine (leftJoinSource_attaches h.sound ht₀ hnested hlater hvalued names condition).bind
    fun r t' ht hr => ?_
  obtain ⟨nested', exposed, shared, own, hattaches⟩ := hr
  have ht₀' := ht₀.trans ht
  have hfresh := hattaches.fresh h.sound
  have hsteady' : d.SteadyOn E t' names nested condition := fun T hT => hsteady T (ht.trans hT)
  rw [hattaches.source]
  obtain ⟨hsound, hgrows⟩ := h.sound.addOptional ht₀' hattaches.sound hattaches.covered
    hattaches.once hattaches.later hattaches.reads
  refine (hattaches.yields h ht₀' hvalued hsteady' (h.addSource ht₀' hsound hfresh) rfl
    (fun v hv => mem_vars_addSource.mpr (.inr hv)) fun _ _ _ hx => hx).mono
    fun d' t'' ht' hd' => ?_
  refine ⟨⟨hd'.tracks, hgrows.trans ht₀' hd'.grows⟩, hd'.tables, fun T hT => ?_⟩
  have hT' := ht'.trans hT
  obtain ⟨f, hf⟩ := hattaches.exposes T hT'
  rw [hd'.solutions hT]
  exact hf.bind_answers (h.sound.mono (ht₀'.trans hT')) hfresh
    (hattaches.matches h hT' ht₀' hf hsteady') (hattaches.sound.mono hT') hattaches.covered

end Draft

end VirtualGraph
