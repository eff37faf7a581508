import VirtualGraph.Proofs.Draft.Meaning
import VirtualGraph.Proofs.Draft.Sources

/-!
# Answers of filters and extensions

A filter or an extension over given query variables sees the solutions of the draft that it is added
to, but only these variables of them. A filter keeps the solutions on which its expression is true,
and an extension binds a query variable to the term that its expression has, if the texts that show
such terms tell them.

The draft may have been there before the pattern that the expression is over. The expression then
sees the terms that the draft had, if the pattern has none for a variable.
-/

namespace VirtualGraph

namespace Solution

/-- The part of a solution that is about given variables. -/
def only (names : List String) (a : Solution) : Solution := fun x => if x ∈ names then a x else none

/-- Solutions that agree with the term that they have for a variable, bound to it. -/
noncomputable def bindEach (name : String) (value : Solution → Option RdfTerm)
    (S : Multiset Solution) : Multiset Solution :=
  S.bind fun a => a.combine (single name (value a))

theorem single_none (name : String) : single name none = empty := funext fun _ => ite_self _

/-- Without terms nothing is bound. -/
theorem bindEach_of_none {name : String} {value : Solution → Option RdfTerm}
    {S : Multiset Solution} (h : ∀ a ∈ S, value a = none) : bindEach name value S = S := by
  refine (Multiset.bind_congr fun a ha => ?_).trans bind_singleton_self
  rw [h a ha, single_none, combine_empty_right]

end Solution

namespace Binding

variable {E : Setting} {columns : ColumnIndex} {row : Row String} {name other : String}
  {b : Binding}

/-- A binding stands for the same term under another name, if the text of the term tells it
there. -/
theorem TrueOf.rename (h : b.TrueOf E columns row other) (hvalued : E.valued name)
    (htold : ∀ x, b.termOf E columns row other = some x → E.told name (E.shown x) = x) :
    b.TrueOf E columns row name ∧
      b.termOf E columns row name = b.termOf E columns row other := by
  cases b with
  | term b =>
    refine ⟨⟨h.legible, h.shown, fun _ => ?_⟩, rfl⟩
    have hterm := htold _ rfl
    rwa [h.shown] at hterm
  | value v shape nullable escaped =>
    have hsame : ∀ text, row v = some text → E.told name text = E.told other text := by
      intro text htext
      have hterm := htold (E.told other text) (congrArg (Option.map (E.told other)) htext)
      rwa [(h.2.2 text htext).1] at hterm
    refine ⟨⟨hvalued, h.2.1, fun text htext => ?_⟩, ?_⟩
    · rw [hsame text htext]
      exact h.2.2 text htext
    · rw [termOf, termOf]
      cases hv : row v with
      | none => rfl
      | some text => exact congrArg some (hsame text hv)

end Binding

namespace Draft

open DraftBuilder

variable {E : Setting} {t T : VariableTable} {d : Draft} {names : List String} {e : Expression}
variable {name : String} {row : Row String}

/-- An expression over given query variables sees them as the draft has them. -/
theorem Faithful.shows (h : d.Faithful E row) (t : VariableTable) (names : List String)
    (x : String) : (d.scope t names).Shows E row ((d.solution E row).only names) x := by
  by_cases hx : x ∈ names
  · have hbinding : (d.scope t names).binding? x = d.bindings.lookup x :=
      Bindings.lookup_restrict hx
    refine ⟨?_, fun b hb => ?_⟩
    · rw [hbinding, Solution.only, if_pos hx]
      rfl
    · rw [hbinding] at hb
      exact h _ (mem_of_lookup hb)
  · exact .of_none (Bindings.lookup_restrict_of_not_mem hx) (if_neg hx)

/-- An expression is steady on what it sees of the solutions of a draft. -/
def SteadyIn (E : Setting) (t : VariableTable) (d : Draft) (names : List String) (e : Expression) :
    Prop :=
  ∀ T, t <+: T → ∀ a ∈ d.solutions E T, e.Steady E.rendering (a.only names)

/-- A draft turns into another that reads the same rows and makes its solutions from the old
ones. -/
structure Turns (E : Setting) (t : VariableTable) (d : Draft)
    (step : Multiset Solution → Multiset Solution) (d' : Draft) (t' : VariableTable) : Prop where
  tracks : d'.Tracks E t'
  grows : d.Grows t d'
  tables : d'.tables = d.tables
  solutions : ∀ T, t' <+: T → d'.solutions E T = step (d.solutions E T)

/-! ### Filters -/

open Classical in
/-- A filter keeps the solutions on which its expression is true. -/
theorem restrict_turns (h : d.Tracks E t) (hsteady : d.SteadyIn E t names e) :
    (d.restrict names e).Builds Fault.Any t
      (d.Turns E t (Multiset.filter fun a => E.meaning.holds e (a.only names))) := by
  refine builds_get_bind <| builds_lift_bind (((Expression.condition_meets (h.sound.scope t names)
    e).allow fun _ _ => trivial).and_eq_ok) fun c hc => builds_pure
      ⟨h.addFilter hc.2, grows_addFilter t d c, rfl, fun T hT => ?_⟩
  rw [solutions, rowsIn, rows_addFilter, solutions, Multiset.filter_map]
  refine congrArg _ (Multiset.filter_congr fun row hrow => ?_)
  exact Expression.condition_yes_iff (hsteady T hT _ (Multiset.mem_map_of_mem _ hrow))
    (fun x _ => (h.faithful T hT row hrow).shows t names x) hc.1

/-! ### Extensions -/

/-- Binding a query variable to what an expression comes to combines each solution with its term. -/
theorem bind_turns {b : Binding} (value : Solution → Option RdfTerm) (h : d.Tracks E t)
    (hb : b.InScope d.columns d.vars) (htrue : ∀ T, t <+: T → ∀ row ∈ d.rowsIn E T,
      b.TrueOf E d.columns row name ∧ b.termOf E d.columns row name = value (d.solution E row)) :
    (d.bind name b).Builds Fault.Excluded t (d.Turns E t (Solution.bindEach name value)) := by
  have hreads := hb.readsFrom h.sound.within
  have hwaits : d.Waits E t d.vars name b := by
    refine ⟨hb, hreads, fun T hT x hx => ?_⟩
    obtain ⟨row, hrow, rfl⟩ := Multiset.mem_map.mp hx
    exact (trueOf_restrict hreads).mpr (htrue T hT row hrow).1
  refine (bind_yields h (List.Subset.refl _) hwaits).mono fun d' t' ht hd' =>
    ⟨hd'.tracks, hd'.grows, hd'.tables, fun T hT => ?_⟩
  rw [hd'.solutions hT, answers, solutions, Solution.bindEach, Multiset.bind_map,
    Multiset.bind_map]
  refine Multiset.bind_congr fun row hrow => ?_
  rw [termOf_restrict hreads, (htrue T (ht.trans hT) row hrow).2]

theorem Tracks.assign {info : VariableInfo} {x : Scalar} (h : d.Tracks E t)
    (hx : x.referenced ⊆ d.vars) : (d.assign t.length x).Tracks E (t ++ [info]) ∧
      ∀ T, t ++ [info] <+: T → (d.assign t.length x).solutions E T = d.solutions E T := by
  have hcarries : ∀ T, t ++ [info] <+: T → d.Carries E T (d.assign t.length x) _ := fun T hT =>
    (h.sound.mono ((List.prefix_append t _).trans hT)).carries_assign h.sound.fresh x
  refine ⟨⟨(h.sound.mono (List.prefix_append t [info])).assign h.sound.fresh (by simp) hx, h.sorted,
    h.numbered, fun T hT row' hrow' => ?_⟩, fun T hT => ?_⟩
  · obtain ⟨row, hrow, hvalues, -⟩ := (hcarries T hT).exists_of_mem hrow'
    exact h.sound.faithful_congr hvalues
      (h.faithful T ((List.prefix_append t _).trans hT) row hrow)
  · exact (hcarries T hT).map_rows fun row _ row' hvalues _ => h.sound.solution_congr hvalues

theorem Tracks.value_means (h : d.Tracks E t) (hsteady : d.SteadyIn E t names e) {v : Computed}
    (hv : e.value (d.scope t names) = .ok v) (hT : t <+: T) (hrow : row ∈ d.rowsIn E T) :
    v.Means E row (e.termOn E.rendering ((d.solution E row).only names)) := by
  have hmeans : (e.value (d.scope t names)).Meets Fault.Any fun v =>
      v.Means E row (e.termOn E.rendering ((d.solution E row).only names)) :=
    Expression.value_means e
      ⟨fun _ _ x _ => (h.faithful T hT row hrow).shows t names x,
        (hsteady T hT _ (Multiset.mem_map_of_mem _ hrow)).parts⟩
  rwa [hv] at hmeans

/-- The terms that an extension binds are told by the texts that show them. -/
def TellsIn (E : Setting) (t : VariableTable) (d : Draft) (names : List String) (name : String)
    (e : Expression) : Prop :=
  ∀ T, t <+: T → ∀ a ∈ d.solutions E T, ∀ x, e.termOn E.rendering (a.only names) = some x →
    E.told name (E.shown x) = x

section Extend

variable (h : d.Tracks E t) (hvalued : E.valued name) (hsteady : d.SteadyIn E t names e)
  (htells : d.TellsIn E t names name e)

include h hvalued hsteady htells

/-- A computed value is assigned to a variable, which stands for the term of the expression. -/
theorem assign_turns {v : Computed} (hv : e.value (d.scope t names) = .ok v)
    (hreads : v.scalar.referenced ⊆ d.vars) (hindices : v.shape.indices ⊆ d.vars) :
    (do
      let target ← freshVariable ⟨.derived, v.type, v.nullable⟩
      (d.assign target v.scalar).bind name (.value target v.shape v.nullable v.escaped)).Builds
        Fault.Excluded t (d.Turns E t
          (Solution.bindEach name fun a => e.termOn E.rendering (a.only names))) := by
  refine builds_fresh_bind ?_
  let info : VariableInfo := ⟨.derived, v.type, v.nullable⟩
  obtain ⟨htracks, hsame⟩ :
      (d.assign t.length v.scalar).Tracks E (t ++ [info]) ∧ ∀ T, t ++ [info] <+: T →
        (d.assign t.length v.scalar).solutions E T = d.solutions E T := h.assign hreads
  have hgrows : d.Grows t (d.assign t.length v.scalar) := grows_assign d _ (Nat.le_refl _)
  have hmem : t.length ∈ (d.assign t.length v.scalar).vars := by
    rw [vars_assign]
    exact List.mem_append_right _ List.mem_cons_self
  have hb : (Binding.value t.length v.shape v.nullable v.escaped).InScope
      (d.assign t.length v.scalar).columns (d.assign t.length v.scalar).vars :=
    ⟨hmem, List.Subset.trans hindices hgrows.vars⟩
  refine (bind_turns (fun a => e.termOn E.rendering (a.only names)) htracks hb
    fun T hT row' hrow' => ?_).mono fun d' t' ht hd' => ?_
  · have hT' := (List.prefix_append t _).trans hT
    obtain ⟨row, hrow, hvalues, hvalue⟩ :=
      ((h.sound.mono hT').carries_assign h.sound.fresh v.scalar).exists_of_mem hrow'
    have hsolution : (d.assign t.length v.scalar).solution E row' = d.solution E row :=
      h.sound.solution_congr hvalues
    have hmeans := h.value_means hsteady hv hT' hrow
    have htold := htells T hT' _ (Multiset.mem_map_of_mem _ hrow)
    rw [hsolution]
    rw [hmeans.text] at hvalue
    refine ⟨⟨hvalued, fun hnull => ?_, fun text htext => ?_⟩, ?_⟩
    · rw [hvalue, ne_eq, Option.map_eq_none_iff]
      exact hmeans.present hnull
    · rw [hvalue] at htext
      obtain ⟨x, hx, rfl⟩ := Option.map_eq_some_iff.mp htext
      rw [htold x hx]
      exact ⟨rfl, (hmeans.shape x hx).congr fun w hw => hvalues w (hindices hw)⟩
    · show (row' t.length).map (E.told name) = _
      rw [hvalue, Option.map_map]
      cases hx : e.termOn E.rendering ((d.solution E row).only names) with
      | none => rfl
      | some x => exact congrArg some (htold x hx)
  · refine ⟨hd'.tracks, hgrows.trans (List.prefix_append t _) hd'.grows, hd'.tables, fun T hT => ?_⟩
    rw [hd'.solutions T hT, hsame T (ht.trans hT)]

omit hsteady in
/-- A query variable is bound to what another one is bound to. -/
theorem copy_turns {other : String} {b : Binding} (he : e = .var other)
    (hb : (d.scope t names).binding? other = some b) : (d.bind name b).Builds Fault.Excluded t
      (d.Turns E t (Solution.bindEach name fun a => e.termOn E.rendering (a.only names))) := by
  subst he
  have hscope := h.sound.scope t names
  refine bind_turns _ h (hscope.binding hb) fun T hT row hrow => ?_
  have hshows := (h.faithful T hT row hrow).shows t names other
  have hterm : b.termOf E d.columns row other = (d.solution E row).only names other := by
    rw [hshows.term, hb]
    rfl
  obtain ⟨htrue, hsame⟩ := (hshows.true b hb).rename hvalued fun x hx =>
    htells T hT _ (Multiset.mem_map_of_mem _ hrow) x (hterm.symm.trans hx)
  exact ⟨htrue, hsame.trans hterm⟩

/-- An extension binds its query variable to the term of its expression. -/
theorem extend_turns (hname : name ∉ names) :
    (d.extend names name e).Builds Fault.Any t (d.Turns E t
      (Solution.bindEach name fun a => e.termOn E.rendering (a.only names))) := by
  have hunbound : (d.scope t names).binding? name = none :=
    Bindings.lookup_restrict_of_not_mem hname
  unfold extend
  refine builds_get_bind ?_
  simp only [hunbound, Option.isSome_none, Bool.false_eq_true, if_false]
  split
  · rename_i b hb
    split at hb
    · rename_i other
      exact (copy_turns h hvalued htells rfl hb).of_excluded
    · cases hb
  · refine builds_lift_bind (((Expression.value_meets (h.sound.scope t names) e).allow
      fun _ _ => trivial).and_eq_ok) fun v hv => ?_
    split
    · rename_i hnull
      refine builds_pure ⟨h, .refl t d, rfl, fun T hT => ?_⟩
      refine (Solution.bindEach_of_none fun a ha => ?_).symm
      obtain ⟨row, hrow, rfl⟩ := Multiset.mem_map.mp ha
      have htext := (h.value_means hsteady hv.1 hT hrow).text
      rw [hnull] at htext
      exact Option.map_eq_none_iff.mp htext.symm
    · exact (assign_turns h hvalued hsteady htells hv.1 hv.2.reads hv.2.indices).of_excluded

end Extend

end Draft

end VirtualGraph
