import VirtualGraph.Proofs.Draft.Answers
import VirtualGraph.Proofs.Draft.Nested

/-!
# Answers of drafts with further sources

A nested draft hands the terms of its query variables to the draft around it as texts, in variables
of their own. Such a variable is a true binding of the query variable wherever it holds the text
that shows the term, provided that the texts tell the terms. A source extends each answer by its own
rows, and the bindings that a draft had stay true.
-/

namespace VirtualGraph

theorem mem_insertName {name x : String} {names : List String} :
    x ∈ insertName name names ↔ x = name ∨ x ∈ names := by
  induction names with
  | nil => simp [insertName]
  | cons n names ih =>
    unfold insertName
    split
    · rename_i heq
      simp [heq]
    · split
      · exact List.mem_cons
      · rw [List.mem_cons, ih, List.mem_cons]
        exact or_left_comm

@[simp] theorem mem_sortNames {x : String} {names : List String} :
    x ∈ sortNames names ↔ x ∈ names := by
  induction names with
  | nil => exact Iff.rfl
  | cons name names ih =>
    rw [sortNames, List.foldr_cons, mem_insertName, List.mem_cons]
    exact or_congr_right ih

theorem pairwise_insertName {name : String} {names : List String} (h : names.Pairwise (· < ·)) :
    (insertName name names).Pairwise (· < ·) := by
  induction names with
  | nil => exact List.pairwise_singleton _ _
  | cons n names ih =>
    obtain ⟨hfirst, hrest⟩ := List.pairwise_cons.mp h
    unfold insertName
    split
    · exact h
    · rename_i hne
      split
      · rename_i hlt
        refine List.pairwise_cons.mpr ⟨List.forall_mem_cons.mpr ⟨hlt, fun x hx => ?_⟩, h⟩
        exact String.lt_trans hlt (hfirst x hx)
      · rename_i hle
        refine List.pairwise_cons.mpr ⟨fun x hx => ?_, ih hrest⟩
        obtain rfl | hx := mem_insertName.mp hx
        · exact Std.lt_of_le_of_ne (String.not_lt.mp hle) (Ne.symm hne)
        · exact hfirst x hx

theorem nodup_sortNames (names : List String) : (sortNames names).Nodup := by
  have hsorted : (sortNames names).Pairwise (· < ·) := by
    induction names with
    | nil => exact List.Pairwise.nil
    | cons name names ih => exact pairwise_insertName ih
  refine List.Pairwise.imp (fun {a b} hlt => ?_) hsorted
  rintro rfl
  exact String.lt_irrefl a hlt

namespace Binding

/-- What is said of values on a row allows for a binding on another one: values that are never null
have one that is never null, and their shape says what its shape says. -/
structure Allows (D : ValueDomain String) (row row' : Row String) (shape : Shape) (nullable : Bool)
    (b : Option Binding) : Prop where
  nullable : nullable = false → ∃ c ∈ b, c.nullable = false
  shape : ∀ c ∈ b, ∀ k, c.shape.Says D row k → shape.Says D row' k

theorem allows_self {D : ValueDomain String} {row row' : Row String} {b : Binding}
    (hrow : ∀ v ∈ b.shape.indices, row' v = row v) :
    Allows D row row' b.shape b.nullable (some b) := by
  refine ⟨fun h => ⟨b, rfl, h⟩, fun c hc k hk => ?_⟩
  obtain rfl : b = c := Option.some_inj.mp hc
  exact hk.congr hrow

/-- The text that is computed for a binding on a row. -/
def textOn (E : Setting) (columns : ColumnIndex) (row : Row String) (b : Binding) : Option String :=
  (b.toScalar columns).toOption.bind (·.eval E.domain row)

theorem toScalar_textOn (E : Setting) (columns : ColumnIndex) (b : Binding) :
    (b.toScalar columns).Meets Fault.Any fun x => ∀ row,
      x.eval E.domain row = b.textOn E columns row := by
  unfold textOn
  cases b.toScalar columns with
  | error f => trivial
  | ok x => exact fun _ => rfl

end Binding

namespace Draft

variable {E : Setting} {t t₀ T : VariableTable} {d : Draft} {s : Source}

/-! ### Texts of query variables -/

/-- The text that a draft has for a query variable on a row. -/
def text (E : Setting) (d : Draft) (row : Row String) : String → Option String := fun name =>
  (d.bindings.lookup name).bind (·.textOn E d.columns row)

theorem Sound.textOn_congr (h : d.Sound t) {row row' : Row String} {e : String × Binding}
    (he : e ∈ d.bindings) (hrow : ∀ v ∈ d.vars, row' v = row v) :
    e.2.textOn E d.columns row' = e.2.textOn E d.columns row := by
  obtain ⟨x, hx, hreads⟩ := (Binding.toScalar_meets h.within (h.bindings e he)).exists_ok
  rw [Binding.textOn, Binding.textOn, hx]
  exact Scalar.eval_congr x fun v hv => hrow v (hreads hv)

theorem Sound.text_congr (h : d.Sound t) {row row' : Row String}
    (hrow : ∀ v ∈ d.vars, row' v = row v) : d.text E row' = d.text E row := by
  funext name
  unfold text
  cases hname : d.bindings.lookup name with
  | none => rfl
  | some b => exact h.textOn_congr (mem_of_lookup hname) hrow

/-- Where its bindings are true, a draft has the texts that show the terms it answers with. -/
theorem Sound.text_eq (h : d.Sound t) {row : Row String} (hrow : d.Faithful E row) (name : String) :
    d.text E row name = (d.solution E row name).map E.shown := by
  unfold text solution
  cases hname : d.bindings.lookup name with
  | none => rfl
  | some b =>
    have hmem := mem_of_lookup hname
    obtain ⟨x, hx, -⟩ := (Binding.toScalar_meets h.within (h.bindings _ hmem)).exists_ok
    have heval : (b.toScalar d.columns).Meets Fault.Any _ := b.toScalar_eval E d.columns
    rw [hx] at heval
    rw [Option.bind_some, Option.bind_some, Binding.textOn, hx]
    exact heval row name (hrow _ hmem)

/-! ### Sources -/

/-- A variable that holds the text of a term of a draft stands for the term. -/
theorem Faithful.trueOf_value {row row' : Row String} {name : String} {v : Variable} {shape : Shape}
    {nullable escaped : Bool} (h : d.Faithful E row) (hvalued : E.valued name)
    (hallows : Binding.Allows E.domain row row' shape nullable (d.bindings.lookup name))
    (hrow : row' v = (d.solution E row name).map E.shown) (columns : ColumnIndex) :
    (Binding.value v shape nullable escaped).TrueOf E columns row' name ∧
      (Binding.value v shape nullable escaped).termOf E columns row' name =
        d.solution E row name := by
  have htrue : ∀ c ∈ d.bindings.lookup name, c.TrueOf E d.columns row name := fun c hc =>
    h _ (mem_of_lookup hc)
  have htold : ∀ x, d.solution E row name = some x → E.told name (E.shown x) = x := by
    intro x hx
    obtain ⟨c, hc, hterm⟩ := Option.bind_eq_some_iff.mp hx
    exact (htrue c hc).told_shown hvalued hterm
  refine ⟨⟨hvalued, fun hnever => ?_, fun text htext => ?_⟩, ?_⟩
  · obtain ⟨c, hc, hnever⟩ := hallows.nullable hnever
    rw [hrow, solution, Option.mem_def.mp hc, Option.bind_some, ne_eq, Option.map_eq_none_iff]
    exact (htrue c hc).termOf_ne_none hnever
  · rw [hrow] at htext
    obtain ⟨x, hx, rfl⟩ := Option.map_eq_some_iff.mp htext
    rw [htold x hx]
    obtain ⟨c, hc, hterm⟩ := Option.bind_eq_some_iff.mp hx
    exact ⟨rfl, hallows.shape c hc _ ((htrue c hc).shape hterm)⟩
  · show (row' v).map (E.told name) = _
    rw [hrow, Option.map_map]
    cases hx : d.solution E row name with
    | none => rfl
    | some x => exact congrArg some (htold x hx)

theorem Sound.answers_addSource (h : d.Sound T) (hnew : ∀ v ∈ s.produced, v ∉ d.vars) :
    (d.addSource s).answers E T s.produced = (d.rowsIn E T).bind fun row =>
      (Source.joinNext E.domain [] row (s, Block.sourceRows E.domain E.db T s)).map fun joined =>
        (d.solution E row, joined.restrict s.produced) := by
  rw [answers, rowsIn, h.rows_addSource hnew, Multiset.map_bind]
  refine Multiset.bind_congr fun row _ => Multiset.map_congr rfl fun joined hjoined => ?_
  obtain ⟨other, rfl⟩ := joinNext_take hjoined
  refine Prod.ext (h.solution_congr fun v hv => ?_) rfl
  exact Row.take_of_not_mem fun hmem => hnew v hmem hv

theorem Tracks.addSource (h : d.Tracks E t₀) (ht₀ : t₀ <+: t) (hsound : (d.addSource s).Sound t)
    (hnew : ∀ v ∈ s.produced, v ∉ d.vars) : (d.addSource s).Tracks E t where
  sound := hsound
  sorted := h.sorted
  numbered := h.numbered
  faithful := fun T hT joined hjoined => by
    have hd := h.sound.mono (ht₀.trans hT)
    rw [rowsIn, hd.rows_addSource hnew] at hjoined
    obtain ⟨row, hrow, hjoined⟩ := Multiset.mem_bind.mp hjoined
    obtain ⟨other, rfl⟩ := joinNext_take hjoined
    refine hd.faithful_congr (fun v hv => ?_) (h.faithful T (ht₀.trans hT) row hrow)
    exact Row.take_of_not_mem fun hmem => hnew v hmem hv

/-! ### Nested drafts -/

section Nested

variable {outs : List (String × Variable)} {b : Draft} {e : Draft × List Variable} {name : String}
variable {info : VariableInfo}

/-- A nested draft under construction still has the rows of the draft that it started as, and the
outputs that it exposes hold the texts that the draft has there. With an output it exposes the
numbers of branches that its shape depends on. -/
structure Follows (E : Setting) (t : VariableTable) (outs : List (String × Variable)) (b : Draft)
    (e : Draft × List Variable) : Prop where
  vars : b.vars ⊆ e.1.vars
  bindings : e.1.bindings = b.bindings
  columns : e.1.columns = b.columns
  exposed : ∀ o ∈ outs, o.2 ∈ e.1.vars → o.2 ∈ e.2
  indices : ∀ o ∈ outs, ∀ c ∈ b.bindings.lookup o.1, c.shape.indices ⊆ e.2
  carries : ∀ T, t <+: T → b.Carries E T e.1 fun row row' =>
    ∀ o ∈ outs, row'.restrict e.2 o.2 = b.text E row o.1

theorem follows_self (E : Setting) (t : VariableTable) (b : Draft) : Follows E t [] b (b, []) where
  vars := List.Subset.refl _
  bindings := rfl
  columns := rfl
  exposed := fun _ ho => absurd ho List.not_mem_nil
  indices := fun _ ho => absurd ho List.not_mem_nil
  carries := fun _ _ => carries_self fun _ _ _ ho => absurd ho List.not_mem_nil

theorem Follows.mono {t' : VariableTable} (h : Follows E t outs b e) (ht : t <+: t') :
    Follows E t' outs b e :=
  { h with carries := fun T hT => h.carries T (ht.trans hT) }

/-- The next output is null in a draft that does not bind its query variable. -/
theorem Follows.keep (h : Follows E t outs b e) (hsound : e.1.Sound t)
    (hlookup : b.bindings.lookup name = none) :
    Follows E (t ++ [info]) (outs ++ [(name, t.length)]) b e := by
  refine { h with
    exposed := fun o ho hmem => ?_, indices := fun o ho c hc => ?_, carries := fun T hT => ?_ }
  · obtain ho | ho := List.mem_append.mp ho
    · exact h.exposed o ho hmem
    · obtain rfl := List.mem_singleton.mp ho
      exact absurd hmem hsound.fresh
  · obtain ho | ho := List.mem_append.mp ho
    · exact h.indices o ho c hc
    · obtain rfl := List.mem_singleton.mp ho
      cases hlookup.symm.trans hc
  · have hT := (List.prefix_append t _).trans hT
    refine (h.carries T hT).mono fun row _ row' hrow' _ hold => ?_
    refine List.forall_mem_append.mpr ⟨hold, List.forall_mem_singleton.mpr ?_⟩
    rw [text, hlookup, Option.bind_none]
    exact Row.restrict_eq_none (rows_eq_none hrow' hsound.fresh)

/-- A draft that binds the query variable of the next output assigns its text. -/
theorem Follows.expose (h : Follows E t outs b e) (hb : b.Sound t) (hsound : e.1.Sound t)
    (houts : ∀ o ∈ outs, o.2 < t.length) {c : Binding} (hlookup : b.bindings.lookup name = some c)
    {x : Scalar} (hx : ∀ row, x.eval E.domain row = c.textOn E e.1.columns row) :
    Follows E (t ++ [info]) (outs ++ [(name, t.length)]) b
      (e.1.assign t.length x, addVariables (e.2 ++ [t.length]) c.shape.indices) := by
  have hvars : ∀ v, v ∈ (e.1.assign t.length x).vars ↔ v ∈ e.1.vars ∨ v = t.length := fun v => by
    rw [vars_assign, List.mem_append, List.mem_singleton]
  have hexposed : ∀ v ∈ e.2 ++ [t.length], v ∈ addVariables (e.2 ++ [t.length]) c.shape.indices :=
    fun v hv => mem_addVariables.mpr (.inl hv)
  have hself : t.length ∈ addVariables (e.2 ++ [t.length]) c.shape.indices :=
    hexposed _ (List.mem_append_right _ List.mem_cons_self)
  refine ⟨fun v hv => (hvars v).mpr (.inl (h.vars hv)), h.bindings, h.columns, fun o ho hmem => ?_,
    fun o ho c' hc' v hv => ?_, fun T hT => ?_⟩
  · obtain hmem | heq := (hvars o.2).mp hmem
    · obtain ho | ho := List.mem_append.mp ho
      · exact hexposed _ (List.mem_append_left _ (h.exposed o ho hmem))
      · obtain rfl := List.mem_singleton.mp ho
        exact absurd hmem hsound.fresh
    · exact heq ▸ hself
  · obtain ho | ho := List.mem_append.mp ho
    · exact hexposed _ (List.mem_append_left _ (h.indices o ho c' hc' hv))
    · obtain rfl := List.mem_singleton.mp ho
      obtain rfl : c = c' := Option.some_inj.mp (hlookup.symm.trans hc')
      exact mem_addVariables.mpr (.inr hv)
  · have hT := (List.prefix_append t _).trans hT
    refine ((h.carries T hT).trans ((hsound.mono hT).carries_assign hsound.fresh x) h.vars).mono ?_
    rintro row - row'' hrow'' - ⟨row', hrow', hsame, hvalues, hold, hvalue⟩
    refine List.forall_mem_append.mpr ⟨fun o ho => ?_, List.forall_mem_singleton.mpr ?_⟩
    · -- Older outputs keep their values, and are exposed wherever they have one.
      rw [← hold o ho]
      by_cases hmem : o.2 ∈ e.1.vars
      · have hin := h.exposed o ho hmem
        rw [Row.restrict_of_mem hin, Row.restrict_of_mem
          (hexposed _ (List.mem_append_left _ hin)), hvalues _ hmem]
      · have hne : o.2 ∉ (e.1.assign t.length x).vars := fun hmem' =>
          ((hvars _).mp hmem').elim hmem fun heq => Nat.lt_irrefl _ (heq ▸ houts o ho)
        rw [Row.restrict_eq_none (rows_eq_none hrow' hmem),
          Row.restrict_eq_none (rows_eq_none hrow'' hne)]
    · rw [Row.restrict_of_mem hself, hvalue, hx row', h.columns, text, hlookup, Option.bind_some]
      exact hb.textOn_congr (mem_of_lookup hlookup) hsame

/-- An output of a draft whose bindings are true stands for the term of its query variable. -/
theorem Faithful.trueOf_output {row row' : Row String} {v : Variable} {shape : Shape}
    {nullable escaped : Bool} (hb : b.Sound t) (h : b.Faithful E row) (hvalued : E.valued name)
    (hallows : Binding.Allows E.domain row row' shape nullable (b.bindings.lookup name))
    (hrow : row' v = b.text E row name) (columns : ColumnIndex) :
    (Binding.value v shape nullable escaped).TrueOf E columns row' name ∧
      (Binding.value v shape nullable escaped).termOf E columns row' name =
        b.solution E row name :=
  h.trueOf_value hvalued hallows (hrow.trans (hb.text_eq h name)) columns

end Nested

end Draft

end VirtualGraph
