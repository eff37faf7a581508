import VirtualGraph.Proofs.Draft.Escaped
import VirtualGraph.Proofs.Draft.Expressions

/-!
# Terms of bindings

What a binding stands for on a row of the block: the term of its pattern, filled from the columns of
the row, or the term that the value of its variable tells. Values are texts here. The text that is
computed for a binding is the one that shows its term, and the condition for two bindings of a query
variable is true exactly when their terms agree.

For this the columns have to be legible, each value that a pattern reads being there and written as
its type prescribes. Patterns of IRIs are compared as the IRIs are written, but all other bindings
by the texts that show them, and the shape behind a value may depend on the row. So a query variable
that is bound to values has to be one whose terms are told by the texts that show them.
-/

namespace VirtualGraph

theorem ValueDomain.Textual.tellsNumbers {D : ValueDomain String} (h : D.Textual) :
    D.TellsNumbers := by
  intro n k
  rw [h.order, h.constant, h.constant]
  exact toString_injective.eq_iff

/-- What the answers of a draft are read with: texts as values, a database of them, and how terms
are shown. For some query variables the terms are told by the texts that show them. -/
structure Setting where
  domain : ValueDomain String
  textual : domain.Textual
  db : Database String
  rendering : Rendering
  /-- The query variables that may be bound to values. -/
  valued : String → Prop
  told : String → String → RdfTerm
  /-- Unless the terms of all query variables are told, they are shown as they are. -/
  own : ∀ name, ¬valued name → ∀ x, rendering.text x = x.text

/-- The text that shows a term. -/
abbrev Setting.shown (E : Setting) (x : RdfTerm) : String := E.rendering.text x

/-- What expressions mean in a setting. -/
abbrev Setting.meaning (E : Setting) : Interpretation String := .shown E.domain E.rendering

variable {E : Setting} {D : ValueDomain String} {row row' : Row String}
variable {columns columns' : ColumnIndex} {name : String}

/-! ### Terms of patterns -/

/-- The text of a pattern, in which the values of an escaped one are encoded. -/
def Pattern.spelled (ρ : Slots) (p : Pattern) : String :=
  p.render (if p.escaped then ρ.encode else ρ.fill)

theorem Pattern.spelled_of_plain {ρ : Slots} {p : Pattern} (h : p.escaped = false) :
    p.spelled ρ = p.render ρ.fill := by
  rw [spelled, h]
  rfl

theorem Pattern.toScalar_eval (hD : D.Textual) (p : Pattern) :
    (p.toScalar columns false).Meets Fault.Any fun x => ∀ row, p.Legible (columns.slots row) →
      x.eval D row = some (p.render (columns.slots row).fill) :=
  (toScalar_text? hD false p).mono fun x hx row hp => by rw [hx row, hp.text?_eq]

namespace BoundTerm

variable {a b : BoundTerm}

/-- The term that a bound term stands for on a row. -/
def onRow (columns : ColumnIndex) (row : Row String) (b : BoundTerm) : RdfTerm :=
  ⟨b.shape, b.pattern.spelled (columns.slots row)⟩

/-- The text that is computed for a bound term. -/
def textOn (columns : ColumnIndex) (row : Row String) (b : BoundTerm) : String :=
  b.pattern.render (columns.slots row).fill

theorem onRow_of_plain (h : b.pattern.escaped = false) :
    b.onRow columns row = ⟨b.shape, b.textOn columns row⟩ := by
  rw [onRow, Pattern.spelled_of_plain h, textOn]

/-- The condition for two bound terms is true exactly where they stand for the same term, if both
are escaped or none is, and otherwise if their texts tell this. -/
theorem equality_eval (hD : D.Textual) (a b : BoundTerm) :
    (a.equality columns b).Meets Fault.Any fun c => ∀ row,
      a.pattern.Legible (columns.slots row) → b.pattern.Legible (columns.slots row) →
      (a.pattern.escaped ≠ b.pattern.escaped → a.shape = b.shape →
        (a.textOn columns row = b.textOn columns row ↔ a.onRow columns row = b.onRow columns row)) →
      (c.eval D row = .yes ↔ a.onRow columns row = b.onRow columns row) := by
  refine (equality_holds hD a b).mono fun c hc row ha hb htexts => ?_
  have hsplit : a.onRow columns row = b.onRow columns row ↔ a.shape = b.shape ∧
      a.pattern.spelled (columns.slots row) = b.pattern.spelled (columns.slots row) :=
    RdfTerm.mk.injEq .. ▸ Iff.rfl
  rw [hc row, Equates, hsplit]
  refine and_congr_right fun hshape => ?_
  by_cases hescaped : a.pattern.escaped = b.pattern.escaped
  · cases hb' : b.pattern.escaped with
    | true =>
      rw [ha.equates_iff_of_escaped hb (hescaped.trans hb') hb', Pattern.spelled,
        Pattern.spelled, hescaped, hb']
      rfl
    | false =>
      have hplain : (a.pattern.escaped && b.pattern.escaped) = false := by simp [hb']
      rw [ha.equates_iff_of_plain hb hplain, Pattern.spelled_of_plain hb',
        Pattern.spelled_of_plain (hescaped.trans hb')]
  · have hplain : (a.pattern.escaped && b.pattern.escaped) = false := by
      cases ha' : a.pattern.escaped <;> cases hb' : b.pattern.escaped <;> simp_all
    rw [ha.equates_iff_of_plain hb hplain]
    exact (htexts hescaped hshape).trans (hsplit.trans (and_iff_right hshape))

/-- What a bound term says of the term of a query variable is true on a row. -/
structure TrueOf (E : Setting) (columns : ColumnIndex) (row : Row String) (name : String)
    (b : BoundTerm) : Prop where
  legible : b.pattern.Legible (columns.slots row)
  shown : E.shown (b.onRow columns row) = b.textOn columns row
  told : E.valued name → E.told name (b.textOn columns row) = b.onRow columns row

/-- The texts of bound terms of one query variable tell whether they stand for the same term. -/
theorem TrueOf.textOn_eq_iff (ha : a.TrueOf E columns row name) (hb : b.TrueOf E columns row name)
    (hshape : a.shape = b.shape) : a.textOn columns row = b.textOn columns row ↔
      a.onRow columns row = b.onRow columns row := by
  constructor
  · intro htext
    by_cases hvalued : E.valued name
    · rw [← ha.told hvalued, htext, hb.told hvalued]
    · have hown := E.own name hvalued
      have hspelled : (a.onRow columns row).text = (b.onRow columns row).text :=
        (hown _).symm.trans ((ha.shown.trans (htext.trans hb.shown.symm)).trans (hown _))
      exact (RdfTerm.mk.injEq ..).mpr ⟨hshape, hspelled⟩
  · intro honRow
    rw [← ha.shown, ← hb.shown, honRow]

end BoundTerm

namespace Binding

variable {b l r : Binding} {x : RdfTerm}

/-! ### Terms of bindings -/

/-- The term of a query variable on a row, if there is one. -/
def termOf (E : Setting) (columns : ColumnIndex) (row : Row String) (name : String) :
    Binding → Option RdfTerm
  | term b => some (b.onRow columns row)
  | value v _ _ _ => (row v).map (E.told name)

/-- What a binding says of the term of a query variable is true on a row. Only a query variable
whose terms are told by texts may be bound to a value. -/
def TrueOf (E : Setting) (columns : ColumnIndex) (row : Row String) (name : String) : Binding → Prop
  | term b => b.TrueOf E columns row name
  | value v shape nullable _ => E.valued name ∧ (nullable = false → row v ≠ none) ∧
    ∀ text, row v = some text → E.shown (E.told name text) = text ∧
      shape.Says E.domain row (some (E.told name text).shape)

theorem TrueOf.told_shown (h : b.TrueOf E columns row name) (hvalued : E.valued name)
    (hx : b.termOf E columns row name = some x) : E.told name (E.shown x) = x := by
  cases b with
  | term b =>
    cases hx
    rw [h.shown, h.told hvalued]
  | value v shape nullable escaped =>
    obtain ⟨text, htext, rfl⟩ := Option.map_eq_some_iff.mp hx
    rw [(h.2.2 text htext).1]

theorem TrueOf.shape (h : b.TrueOf E columns row name)
    (hx : b.termOf E columns row name = some x) : b.shape.Says E.domain row (some x.shape) := by
  cases b with
  | term b =>
    cases hx
    exact .known b.shape
  | value v shape nullable escaped =>
    obtain ⟨text, htext, rfl⟩ := Option.map_eq_some_iff.mp hx
    exact (h.2.2 text htext).2

theorem TrueOf.shape_of_known (h : b.TrueOf E columns row name)
    (hx : b.termOf E columns row name = some x) {s : TermShape} (hs : b.shape = .known s) :
    x.shape = s :=
  (hs ▸ h.shape hx).shape_eq

theorem TrueOf.termOf_ne_none (h : b.TrueOf E columns row name) (hnull : b.nullable = false) :
    b.termOf E columns row name ≠ none := by
  cases b with
  | term b => exact Option.some_ne_none _
  | value v shape nullable escaped =>
    rw [termOf, ne_eq, Option.map_eq_none_iff]
    exact h.2.1 hnull

/-- A binding is null exactly where the variable is that says so. -/
theorem TrueOf.termOf_eq_none (h : b.TrueOf E columns row name) :
    b.termOf E columns row name = none ↔ ∃ v, b.nullVariable? = some v ∧ row v = none := by
  cases b with
  | term b => simp [termOf, nullVariable?]
  | value v shape nullable escaped =>
    cases nullable with
    | true => simp [termOf, nullVariable?]
    | false => simpa [termOf, nullVariable?] using h.2.1 rfl

/-- The variables that a binding reads are among given ones. -/
def ReadsFrom (columns : ColumnIndex) (vs : List Variable) : Binding → Prop
  | term b => ∀ s, .slot s ∈ b.pattern.symbols → ∃ v ∈ vs, columns.lookup (s.row, s.column) = some v
  | value v shape _ _ => v ∈ vs ∧ shape.indices ⊆ vs

theorem InScope.readsFrom {vs : List Variable} (h : b.InScope columns vs)
    (hcolumns : columns.Within vs) : b.ReadsFrom columns vs := by
  cases b with
  | term b =>
    intro s hs
    obtain ⟨v, hv⟩ := Option.isSome_iff_exists.mp (h s hs)
    exact ⟨v, hcolumns _ (mem_of_lookup hv), hv⟩
  | value v shape nullable escaped => exact h

section Congruence

variable {vs : List Variable} (h : b.ReadsFrom columns vs)
  (hcolumns : ∀ k v, columns.lookup k = some v → columns'.lookup k = some v)
  (hrow : ∀ v ∈ vs, row' v = row v)
include hcolumns hrow

theorem slots_eq {b : BoundTerm} (h : (term b).ReadsFrom columns vs) :
    ∀ s, .slot s ∈ b.pattern.symbols → columns'.slots row' s = columns.slots row s := by
  intro s hs
  obtain ⟨v, hv, hlookup⟩ := h s hs
  rw [ColumnIndex.slots, ColumnIndex.slots, hlookup, hcolumns _ _ hlookup, Option.bind_some,
    Option.bind_some, hrow v hv]

theorem ReadsFrom.textOn_eq {b : BoundTerm} (h : (term b).ReadsFrom columns vs) :
    b.textOn columns' row' = b.textOn columns row :=
  Pattern.render_congr fun s hs => congrArg (·.getD "") (slots_eq hcolumns hrow h s hs)

theorem ReadsFrom.onRow_eq {b : BoundTerm} (h : (term b).ReadsFrom columns vs) :
    b.onRow columns' row' = b.onRow columns row := by
  refine congrArg (RdfTerm.mk b.shape) (Pattern.render_congr fun s hs => ?_)
  have hfill : (columns'.slots row').fill s = (columns.slots row).fill s :=
    congrArg (·.getD "") (slots_eq hcolumns hrow h s hs)
  split
  · exact congrArg Text.percentEncode hfill
  · exact hfill

theorem ReadsFrom.legible {b : BoundTerm} (h : (term b).ReadsFrom columns vs)
    (hb : b.pattern.Legible (columns.slots row)) : b.pattern.Legible (columns'.slots row') := by
  refine ⟨fun s hs => ?_, hb.noPercent⟩
  obtain ⟨text, htext, hlexical⟩ := hb.slots s hs
  exact ⟨text, (slots_eq hcolumns hrow h s hs).trans htext, hlexical⟩

include h

theorem ReadsFrom.termOf_eq : b.termOf E columns' row' name = b.termOf E columns row name := by
  cases b with
  | term b => exact congrArg some (h.onRow_eq hcolumns hrow)
  | value v shape nullable escaped => rw [termOf, termOf, hrow v h.1]

theorem ReadsFrom.trueOf (hb : b.TrueOf E columns row name) : b.TrueOf E columns' row' name := by
  cases b with
  | term b =>
    refine ⟨h.legible hcolumns hrow hb.legible, ?_, ?_⟩
    · rw [h.onRow_eq hcolumns hrow, h.textOn_eq hcolumns hrow]
      exact hb.shown
    · rw [h.onRow_eq hcolumns hrow, h.textOn_eq hcolumns hrow]
      exact hb.told
  | value v shape nullable escaped =>
    refine ⟨hb.1, hrow v h.1 ▸ hb.2.1, fun text htext => ?_⟩
    obtain ⟨hshown, hshape⟩ := hb.2.2 text ((hrow v h.1).symm.trans htext)
    exact ⟨hshown, hshape.congr fun w hw => hrow w (h.2 hw)⟩

end Congruence

/-! ### Conditions -/

section

variable (E) (columns)

/-- The text that is computed for a binding shows its term. -/
theorem toScalar_eval (b : Binding) :
    (b.toScalar columns).Meets Fault.Any fun x => ∀ row name, b.TrueOf E columns row name →
      x.eval E.domain row = (b.termOf E columns row name).map E.shown := by
  cases b with
  | term b =>
    refine (Pattern.toScalar_eval E.textual b.pattern).mono fun x hx row name h => ?_
    rw [hx row h.legible, termOf, Option.map_some, h.shown]
    rfl
  | value v shape nullable escaped =>
    intro row name h
    rw [Scalar.eval, termOf, Option.map_map]
    cases hv : row v with
    | none => rfl
    | some text => exact congrArg some (h.2.2 text hv).1.symm

omit E columns in
theorem disjoint_iff {s t : Shape} : s.disjoint t = true ↔ ∃ a b, s = .known a ∧ t = .known b ∧
    (a.termType ≠ b.termType ∨ a.language ≠ b.language) := by
  cases s <;> cases t <;> simp [Shape.disjoint, Shape.known?]

theorem termEquality_eval (l r : Binding) :
    (termEquality columns l r).Meets Fault.Any fun c => ∀ row name,
      l.TrueOf E columns row name → r.TrueOf E columns row name →
      ∀ x y, l.termOf E columns row name = some x → r.termOf E columns row name = some y →
      (c.eval E.domain row = .yes ↔ x = y) := by
  unfold termEquality
  split
  · rename_i hdisjoint
    obtain ⟨a, b, ha, hb, hne⟩ := disjoint_iff.mp hdisjoint
    intro row name hl hr x y hx hy
    have hxy : x ≠ y := by
      rintro rfl
      have hab : a = b := (hl.shape_of_known hx ha).symm.trans (hr.shape_of_known hy hb)
      simp [hab] at hne
    simp [Condition.eval, hxy]
  · split
    · rename_i a b _
      refine (BoundTerm.equality_eval E.textual a b).mono fun c hc row name hl hr x y hx hy => ?_
      cases hx
      cases hy
      exact hc row hl.legible hr.legible fun _ hshape => hl.textOn_eq_iff hr hshape
    · rename_i hterms
      refine (toScalar_eval E columns l).bind fun a ha => (toScalar_eval E columns r).bind
        fun b hb row name hl hr x y hx hy => ?_
      have hvalued : E.valued name := by
        cases l with
        | value v shape nullable escaped => exact hl.1
        | term b =>
          cases r with
          | value v shape nullable escaped => exact hr.1
          | term c => exact absurd rfl (hterms b c rfl)
      have hshown : E.shown x = E.shown y ↔ x = y := by
        refine ⟨fun h => ?_, congrArg E.shown⟩
        rw [← hl.told_shown hvalued hx, h, hr.told_shown hvalued hy]
      rw [Condition.eval_equal_iff E.textual, ha row name hl, hb row name hr, hx, hy, ← hshown]
      simp [eq_comm]

/-- The condition for two bindings is true exactly where their terms agree. -/
theorem equality_eval (l r : Binding) :
    (l.equality columns r).Meets Fault.Any fun c => ∀ row name,
      l.TrueOf E columns row name → r.TrueOf E columns row name →
      (c.eval E.domain row = .yes ↔ l.termOf E columns row name = none ∨
        r.termOf E columns row name = none ∨
        l.termOf E columns row name = r.termOf E columns row name) := by
  refine (termEquality_eval E columns l r).bind fun c hc => ?_
  have hagree : ∀ row name, l.TrueOf E columns row name → r.TrueOf E columns row name →
      ((∃ v ∈ [l, r].filterMap nullVariable?, row v = none) ∨ c.eval E.domain row = .yes ↔
        l.termOf E columns row name = none ∨ r.termOf E columns row name = none ∨
          l.termOf E columns row name = r.termOf E columns row name) := by
    intro row name hl hr
    have hnull : (∃ v ∈ [l, r].filterMap nullVariable?, row v = none) ↔
        l.termOf E columns row name = none ∨ r.termOf E columns row name = none := by
      rw [hl.termOf_eq_none, hr.termOf_eq_none]
      simp [List.mem_filterMap, or_and_right, exists_or]
    rw [hnull, or_assoc]
    cases hx : l.termOf E columns row name with
    | none => simp
    | some x =>
      cases hy : r.termOf E columns row name with
      | none => simp
      | some y => simp [hc row name hl hr x y hx hy]
  split
  · rename_i hnil
    intro row name hl hr
    simpa [hnil] using hagree row name hl hr
  · intro row name hl hr
    rw [Condition.eval_or_isNull, hagree row name hl hr]

end

end Binding

end VirtualGraph
