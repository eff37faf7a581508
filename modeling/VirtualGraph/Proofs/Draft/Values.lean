import VirtualGraph.Proofs.Block.Nulls
import VirtualGraph.Proofs.Bound.Candidate
import VirtualGraph.Proofs.Draft.Reads
import VirtualGraph.Proofs.Pattern.Constants

/-!
# Conditions on column values

What the condition for two patterns says of the values of the columns, whatever these are: some may
be null, none need be written as its type prescribes, and any of them may hold a reserved character.
Each pair that the comparison of the patterns leaves over has to have the same text on both sides,
its constants decoded if both patterns are escaped, and a constant that a column is compared with
has to be how a value of its type is written.

For a constant this comes to the same as a comparison of texts in two cases: where the other pattern
is not escaped or has no column, and where the constant spells a text with separators that no value
holds.
-/

namespace VirtualGraph

/-- Values are texts. Constants stand for themselves whatever their type is, and equal values are
equal texts. -/
structure ValueDomain.Textual (D : ValueDomain String) : Prop where
  constant : ∀ text type, D.constant text type = text
  concat : ∀ texts, D.concat texts = String.join texts
  order : ∀ a b, (D.order a b).isEq = true ↔ a = b

/-- Texts in their usual order; a language range or a pattern is met by itself only. -/
def ValueDomain.texts : ValueDomain String :=
  ⟨fun text _ => text, String.join, compare, (· == ·), (· == ·)⟩

theorem ValueDomain.textual_texts : texts.Textual where
  constant := fun _ _ => rfl
  concat := fun _ => rfl
  order := fun _ _ => by rw [texts, Ordering.isEq_iff_eq_eq, Std.LawfulEqCmp.compare_eq_iff_eq]

/-- The values of slots, as far as they have any. -/
abbrev Slots := Slot → Option String

/-- How values fill the slots of patterns, nulls as empty texts. -/
def Slots.fill (ρ : Slots) : Valuation := fun s => (ρ s).getD ""

/-- The values of the columns of a row. -/
def ColumnIndex.slots (columns : ColumnIndex) (row : Row String) : Slots := fun s =>
  (columns.lookup (s.row, s.column)).bind row

variable {D : ValueDomain String} {row : Row String} {columns : ColumnIndex} {ρ : Slots}

theorem ColumnIndex.get_slots (s : Slot) :
    (columns.get s.row s.column).Meets Fault.Any fun v => ∀ row, row v = columns.slots row s := by
  unfold ColumnIndex.get ColumnIndex.slots
  cases columns.lookup (s.row, s.column) with
  | none => trivial
  | some v => exact fun _ => rfl

/-! ### Texts of patterns -/

/-- The text of an item. -/
def PatternItem.render (σ : Valuation) : PatternItem → String
  | text t => t
  | slot s => σ s

/-- The text of an item, unless it is null. -/
def PatternItem.text? (decode : Bool) (ρ : Slots) : PatternItem → Option String
  | text t => some (Pattern.decodeText decode t)
  | slot s => ρ s

/-- The texts of items, unless one of them is null. -/
def PatternItem.texts? (decode : Bool) (ρ : Slots) : List PatternItem → Option (List String)
  | [] => some []
  | i :: items =>
    match i.text? decode ρ, texts? decode ρ items with
    | some t, some ts => some (t :: ts)
    | _, _ => none

namespace Pattern

variable {p q : Pattern} {σ τ : Valuation}

theorem flatMap_addSymbol (x : Symbol) (items : List PatternItem) :
    (addSymbol x items).flatMap (fun i => (i.render σ).toList) =
      x.text σ ++ items.flatMap fun i => (i.render σ).toList := by
  cases x with
  | slot s => rfl
  | char c =>
    cases items with
    | nil => simp [addSymbol, PatternItem.render, Symbol.text]
    | cons item items =>
      cases item <;> simp [addSymbol, PatternItem.render, Symbol.text]

/-- The text of a pattern is made of the texts of its items. -/
theorem join_render_items (p : Pattern) : String.join (p.items.map (·.render σ)) = p.render σ := by
  have htext : p.items.flatMap (fun i => (i.render σ).toList) = textOf σ p.symbols := by
    rw [items]
    induction p.symbols with
    | nil => rfl
    | cons x symbols ih => rw [List.foldr_cons, flatMap_addSymbol, ih, textOf_cons]
  apply String.toList_injective
  rw [String.toList_join, List.flatMap_map, htext, render, String.toList_ofList]

theorem char_mem_addSymbol {x : Symbol} {items : List PatternItem} {t : String} {c : Char}
    (h : .text t ∈ addSymbol x items) (hc : c ∈ t.toList) :
    x = .char c ∨ ∃ t', .text t' ∈ items ∧ c ∈ t'.toList := by
  cases x with
  | slot s =>
    rw [addSymbol, List.mem_cons] at h
    exact .inr ⟨t, h.resolve_left (by simp), hc⟩
  | char d =>
    have hnew : ∀ {l : List Char} {rest : List PatternItem},
        .text t ∈ PatternItem.text (String.ofList (d :: l)) :: rest →
          d = c ∨ c ∈ l ∨ .text t ∈ rest := by
      intro l rest h
      obtain h | h := List.mem_cons.mp h
      · cases h
        rw [String.toList_ofList, List.mem_cons] at hc
        exact hc.imp Eq.symm .inl
      · exact .inr (.inr h)
    cases items with
    | nil =>
      obtain rfl | h | h := hnew h
      · exact .inl rfl
      · exact absurd h List.not_mem_nil
      · exact absurd h List.not_mem_nil
    | cons item items =>
      cases item with
      | text t' =>
        obtain rfl | h | h := hnew h
        · exact .inl rfl
        · exact .inr ⟨t', List.mem_cons_self, h⟩
        · exact .inr ⟨t, List.mem_cons_of_mem _ h, hc⟩
      | slot s =>
        obtain rfl | h | h := hnew h
        · exact .inl rfl
        · exact absurd h List.not_mem_nil
        · exact .inr ⟨t, h, hc⟩

theorem char_mem_items {t : String} {c : Char} (h : .text t ∈ p.items) (hc : c ∈ t.toList) :
    .char c ∈ p.symbols := by
  rw [items] at h
  generalize p.symbols = symbols at h ⊢
  induction symbols generalizing t with
  | nil => exact absurd h List.not_mem_nil
  | cons x symbols ih =>
    obtain rfl | ⟨t', h, hc⟩ := char_mem_addSymbol h hc
    · exact List.mem_cons_self
    · exact List.mem_cons_of_mem _ (ih hc h)

theorem render_congr (h : ∀ s, .slot s ∈ p.symbols → σ s = τ s) : p.render σ = p.render τ := by
  refine congrArg String.ofList (List.flatMap_congr fun x hx => ?_)
  cases x with
  | char c => rfl
  | slot s => exact congrArg String.toList (h s hx)

theorem render_of_constant? {text : String} (h : p.constant? = some text) : p.render σ = text := by
  unfold constant? at h
  split at h
  · rename_i hconstant
    cases h
    rw [render, eq_map_char_of_all_isChar hconstant, textOf_chars]
    rfl
  · cases h

theorem decodeText_eq_self {text : String} (decode : Bool) (h : '%' ∉ text.toList) :
    decodeText decode text = text := by
  cases decode with
  | false => rfl
  | true => exact Text.percentDecode_eq_self h

variable {decode : Bool} {s : Slot} {text : String}

/-- The text of a pattern, unless one of its slots is null. -/
def text? (decode : Bool) (ρ : Slots) (p : Pattern) : Option String :=
  (PatternItem.texts? decode ρ p.items).map String.join

/-- All slots have values. -/
def Filled (ρ : Slots) (p : Pattern) : Prop := ∀ s, .slot s ∈ p.symbols → ρ s ≠ none

theorem slot_mem_items_of_mem (h : .slot s ∈ p.symbols) : .slot s ∈ p.items := by
  rw [items]
  generalize p.symbols = symbols at h ⊢
  induction symbols with
  | nil => exact absurd h List.not_mem_nil
  | cons x symbols ih =>
    have hkept : ∀ {items : List PatternItem}, .slot s ∈ items → .slot s ∈ addSymbol x items := by
      intro items hs
      cases x with
      | slot s' => exact List.mem_cons_of_mem _ hs
      | char c =>
        rcases items with _ | ⟨t | s', items⟩
        · exact absurd hs List.not_mem_nil
        · exact List.mem_cons_of_mem _ ((List.mem_cons.mp hs).resolve_left (by simp))
        · exact List.mem_cons_of_mem _ hs
    obtain rfl | h := List.mem_cons.mp h
    · exact List.mem_cons_self
    · exact hkept (ih h)

end Pattern

theorem PatternItem.texts?_eq_some {decode : Bool} {items : List PatternItem}
    {g : PatternItem → String} (h : ∀ i ∈ items, i.text? decode ρ = some (g i)) :
    texts? decode ρ items = some (items.map g) := by
  induction items with
  | nil => rfl
  | cons i items ih =>
    rw [List.forall_mem_cons] at h
    rw [texts?, h.1, ih h.2]
    rfl

theorem PatternItem.texts?_eq_none {decode : Bool} {items : List PatternItem} {i : PatternItem}
    (hi : i ∈ items) (h : i.text? decode ρ = none) : texts? decode ρ items = none := by
  induction items with
  | nil => exact absurd hi List.not_mem_nil
  | cons j items ih =>
    rw [texts?]
    obtain rfl | hi := List.mem_cons.mp hi
    · rw [h]
    · rw [ih hi]
      cases j.text? decode ρ <;> rfl

namespace Pattern

variable {p q : Pattern} {decode : Bool} {s : Slot} {text : String}

/-- The text of a pattern whose characters decode to themselves. -/
theorem text?_eq_some (h : p.Filled ρ) (hdecode : decode = true → .char '%' ∉ p.symbols) :
    p.text? decode ρ = some (p.render ρ.fill) := by
  have hitems : ∀ i ∈ p.items, i.text? decode ρ = some (i.render ρ.fill) := by
    intro i hi
    cases i with
    | text t =>
      refine congrArg some ?_
      cases decode with
      | false => rfl
      | true => exact decodeText_eq_self true fun hc => hdecode rfl (char_mem_items hi hc)
    | slot s =>
      obtain ⟨text, htext⟩ := Option.ne_none_iff_exists'.mp (h s (slot_mem_items hi))
      rw [PatternItem.text?, htext, PatternItem.render, Slots.fill, htext, Option.getD_some]
  rw [text?, PatternItem.texts?_eq_some hitems, Option.map_some, join_render_items]

theorem filled_of_text? (h : p.text? decode ρ = some text) : p.Filled ρ := by
  intro s hs hnull
  have hnone : p.text? decode ρ = none := by
    rw [text?, PatternItem.texts?_eq_none (slot_mem_items_of_mem hs) hnull, Option.map_none]
  rw [hnone] at h
  cases h

theorem text?_eq_some_iff (hdecode : decode = true → .char '%' ∉ p.symbols) :
    p.text? decode ρ = some text ↔ p.Filled ρ ∧ p.render ρ.fill = text := by
  constructor
  · intro h
    have hfilled := filled_of_text? h
    rw [text?_eq_some hfilled hdecode] at h
    exact ⟨hfilled, Option.some_inj.mp h⟩
  · rintro ⟨hfilled, rfl⟩
    exact text?_eq_some hfilled hdecode

theorem text?_of_items_eq_slot (h : p.items = [.slot s]) : p.text? decode ρ = ρ s := by
  rw [text?, h, PatternItem.texts?, PatternItem.texts?, PatternItem.text?]
  cases ρ s with
  | none => rfl
  | some t => simp

/-- A constant has one item, unless it is empty. -/
theorem items_of_isConstant (h : p.isConstant = true) :
    p.items = if p.chars = [] then [] else [.text (String.ofList p.chars)] := by
  have hfold : ∀ cs : List Char, (cs.map Symbol.char).foldr addSymbol [] =
      if cs = [] then [] else [.text (String.ofList cs)] := by
    intro cs
    induction cs with
    | nil => rfl
    | cons c cs ih =>
      rw [List.map_cons, List.foldr_cons, ih]
      cases cs with
      | nil => rfl
      | cons d cs => simp [addSymbol]
  rw [items, eq_map_char_of_all_isChar h]
  exact hfold p.chars

theorem text?_of_constant? (h : p.constant? = some text) :
    p.text? decode ρ = some (decodeText decode text) := by
  unfold constant? at h
  split at h
  · rename_i hconstant
    cases h
    rw [text?, items_of_isConstant hconstant]
    split
    · rename_i hnil
      rw [hnil]
      cases decode <;> rfl
    · simp [PatternItem.texts?, PatternItem.text?]
  · cases h

end Pattern

/-! ### Scalars -/

section Scalars

variable (hD : D.Textual)
include hD

theorem Scalar.eval_join (xs : List Scalar) :
    (Scalar.join xs).eval D row = (Scalar.evalAll D row xs).map String.join := by
  match xs with
  | [] =>
    show some (D.constant "" .string) = some (String.join [])
    rw [hD.constant]
    rfl
  | [x] =>
    rw [Scalar.join, Scalar.evalAll, Scalar.evalAll]
    cases x.eval D row with
    | none => rfl
    | some a => simp
  | x :: y :: xs =>
    show (Scalar.concat (x :: y :: xs)).eval D row = _
    rw [Scalar.eval, funext hD.concat]

omit hD in
theorem Condition.eval_all {cs : List Condition} :
    (Condition.all cs).eval D row = .yes ↔ ∀ c ∈ cs, c.eval D row = .yes := by
  match cs with
  | [] => simp [Condition.all, Condition.eval]
  | [c] => simp [Condition.all]
  | c :: d :: cs =>
    show (Condition.and (c :: d :: cs)).eval D row = .yes ↔ _
    rw [Condition.eval, Truth.all_eq_yes, Condition.evalEach_eq_map, List.forall_mem_map]

omit hD in
theorem Condition.eval_or_isNull (vs : List Variable) (c : Condition) :
    (Condition.or (vs.map .isNull ++ [c])).eval D row = .yes ↔
      (∃ v ∈ vs, row v = none) ∨ c.eval D row = .yes := by
  rw [Condition.eval, Truth.any_eq_yes, Condition.evalEach_eq_map]
  simp only [List.map_append, List.map_map, List.mem_append, List.mem_map, List.map_cons,
    List.map_nil, List.mem_singleton, Function.comp_apply, Condition.eval, Truth.ofBool_eq_yes,
    Option.isNone_iff_eq_none, eq_comm (a := Truth.yes)]

omit hD in
theorem Condition.eval_equal (x y : Scalar) :
    (Condition.equal x y).eval D row = (Condition.sameValue x y).eval D row := by
  cases x <;> cases y <;> rfl

theorem Condition.eval_equal_iff {x y : Scalar} : (Condition.equal x y).eval D row = .yes ↔
    ∃ text, x.eval D row = some text ∧ y.eval D row = some text := by
  rw [Condition.eval_equal, Condition.eval]
  cases hx : x.eval D row with
  | none => simp
  | some a =>
    cases hy : y.eval D row with
    | none => simp
    | some b =>
      refine Truth.ofBool_eq_yes.trans ((hD.order a b).trans ?_)
      simp [eq_comm (a := b)]

theorem Condition.eval_sameVariable {v w : Variable} :
    (Condition.sameVariable v w).eval D row = .yes ↔ row v ≠ none ∧ row v = row w := by
  cases hv : row v with
  | none => simp [eval, hv]
  | some a =>
    cases hw : row w with
    | none => simp [eval, hv, hw]
    | some b => simpa [eval, hv, hw] using hD.order a b

theorem Condition.eval_equalsConstant {x : Scalar} {text : String} {type : SqlType} :
    (Condition.compare .eq x (.constant text type)).eval D row = .yes ↔
      x.eval D row = some text := by
  rw [Condition.eval, Scalar.eval, hD.constant]
  cases hx : x.eval D row with
  | none => simp
  | some a =>
    refine Truth.ofBool_eq_yes.trans ((hD.order a text).trans ?_)
    rw [Option.some_inj]

theorem PatternItem.toScalars_texts? (decode : Bool) (items : List PatternItem) :
    (PatternItem.toScalars columns decode items).Meets Fault.Any fun xs => ∀ row,
      Scalar.evalAll D row xs = PatternItem.texts? decode (columns.slots row) items := by
  induction items with
  | nil => exact fun _ => rfl
  | cons item items ih =>
    have hitem : (item.toScalar columns decode).Meets Fault.Any fun x => ∀ row,
        x.eval D row = item.text? decode (columns.slots row) := by
      cases item with
      | text t => exact fun _ => congrArg some (hD.constant _ _)
      | slot s => exact (ColumnIndex.get_slots s).map fun v hv row => hv row
    refine hitem.bind fun x hx => ih.bind fun xs hxs row => ?_
    rw [Scalar.evalAll, PatternItem.texts?, hx row, hxs row]
    cases item.text? decode (columns.slots row) with
    | none => rfl
    | some t => cases PatternItem.texts? decode (columns.slots row) items <;> rfl

/-- The scalar of a pattern has its text. -/
theorem Pattern.toScalar_text? (decode : Bool) (p : Pattern) :
    (p.toScalar columns decode).Meets Fault.Any fun x => ∀ row,
      x.eval D row = p.text? decode (columns.slots row) := by
  refine (PatternItem.toScalars_texts? hD decode p.items).map fun xs hxs row => ?_
  rw [Scalar.eval_join hD, hxs row, text?]

end Scalars

/-! ### What the condition for two patterns says -/

namespace Pattern

variable {p q l r : Pattern} {s : Slot} {text : String}

/-- A column and a constant that it is compared with: the constant, decoded if asked for, is how a
value of the column's type is written. -/
def Allowed (decode : Bool) (l r : Pattern) : Prop :=
  ∀ s text, l.items = [.slot s] → r.constant? = some text →
    s.type.isLexical (decodeText decode text) = true

/-- What a pair that a comparison leaves over says of the values of its slots. -/
structure Matches (ρ : Slots) (l r : Pattern) : Prop where
  texts : ∃ text, l.text? (l.escaped && r.escaped) ρ = some text ∧
    r.text? (l.escaped && r.escaped) ρ = some text
  left : Allowed (l.escaped && r.escaped) l r
  right : Allowed (l.escaped && r.escaped) r l

/-- What the condition for two patterns says of the values of their slots. -/
def Equates (ρ : Slots) (l r : Pattern) : Prop :=
  ∃ pairs, reduce l.escaped r.escaped l.symbols r.symbols = some pairs ∧
    ∀ pair ∈ pairs, pair.1.Matches ρ pair.2

theorem matches_comm : l.Matches ρ r ↔ r.Matches ρ l := by
  have hswap : ∀ {l r : Pattern}, l.Matches ρ r → r.Matches ρ l := by
    intro l r h
    obtain ⟨text, hl, hr⟩ := h.texts
    have hl' := h.left
    have hr' := h.right
    rw [Bool.and_comm] at hl hr hl' hr'
    exact ⟨⟨text, hr, hl⟩, hr', hl'⟩
  exact ⟨hswap, hswap⟩

theorem equates_comm : l.Equates ρ r ↔ r.Equates ρ l := by
  have hswap : ∀ {l r : Pattern}, l.Equates ρ r → r.Equates ρ l := by
    rintro l r ⟨pairs, hpairs, h⟩
    refine ⟨pairs.map Prod.swap, ?_, List.forall_mem_map.mpr fun pair hpair => ?_⟩
    · rw [reduce_comm, hpairs, Option.map_some]
    · exact matches_comm.mp (h pair hpair)
  exact ⟨hswap, hswap⟩

theorem constant?_eq_none (h : p.items = [.slot s]) : p.constant? = none := by
  have hs : .slot s ∈ p.symbols := slot_mem_items (h ▸ List.mem_cons_self)
  exact if_neg fun hconstant => absurd (List.all_eq_true.mp hconstant _ hs) Bool.false_ne_true

theorem matches_of_slot (h : p.items = [.slot s]) (htext : q.constant? = some text) :
    p.Matches ρ q ↔ s.type.isLexical (decodeText (p.escaped && q.escaped) text) = true ∧
      ρ s = some (decodeText (p.escaped && q.escaped) text) := by
  constructor
  · intro hpq
    obtain ⟨t, hp, hq⟩ := hpq.texts
    rw [text?_of_items_eq_slot h] at hp
    rw [text?_of_constant? htext] at hq
    exact ⟨hpq.left s text h htext, hp.trans hq.symm⟩
  · rintro ⟨hlexical, hvalue⟩
    refine ⟨⟨_, (text?_of_items_eq_slot h).trans hvalue, text?_of_constant? htext⟩, ?_, ?_⟩
    · intro s' text' hs' htext'
      cases h.symm.trans hs'
      cases htext.symm.trans htext'
      exact hlexical
    · intro s' text' hs' _
      rw [constant?_eq_none hs'] at htext
      cases htext

section

variable (hD : D.Textual)
include hD

theorem slotEquals_holds (s : Slot) (text : String) :
    (slotEquals columns s text).Meets Fault.Any fun c => ∀ row, c.eval D row = .yes ↔
      s.type.isLexical text = true ∧ columns.slots row s = some text := by
  unfold slotEquals
  split
  · rename_i hlexical
    refine (ColumnIndex.get_slots s).map fun v hv row => ?_
    rw [Condition.eval_equalsConstant hD, Scalar.eval, hv row, and_iff_right hlexical]
  · rename_i hlexical
    intro row
    simp [Condition.eval, hlexical]

theorem residualCondition_holds (p q : Pattern) :
    (residualCondition columns p q).Meets Fault.Any fun c => ∀ row,
      c.eval D row = .yes ↔ p.Matches (columns.slots row) q := by
  unfold residualCondition
  dsimp only
  split
  · rename_i a b ha hb
    refine (ColumnIndex.get_slots a).bind fun v hv =>
      (ColumnIndex.get_slots b).bind fun w hw row => ?_
    rw [Condition.eval_sameVariable hD, hv row, hw row]
    constructor
    · rintro ⟨hnull, hsame⟩
      obtain ⟨text, htext⟩ := Option.ne_none_iff_exists'.mp hnull
      refine ⟨⟨text, (text?_of_items_eq_slot ha).trans htext,
        (text?_of_items_eq_slot hb).trans (hsame ▸ htext)⟩, ?_, ?_⟩
      · exact fun _ _ _ htext => absurd htext (constant?_eq_none hb ▸ by simp)
      · exact fun _ _ _ htext => absurd htext (constant?_eq_none ha ▸ by simp)
    · intro h
      obtain ⟨text, hp, hq⟩ := h.texts
      rw [text?_of_items_eq_slot ha] at hp
      rw [text?_of_items_eq_slot hb] at hq
      exact ⟨hp ▸ Option.some_ne_none text, hp.trans hq.symm⟩
  · rename_i s text hs htext _
    refine (slotEquals_holds hD s _).mono fun c hc row => ?_
    rw [hc row, matches_of_slot hs htext]
  · rename_i s text hs htext _
    refine (slotEquals_holds hD s _).mono fun c hc row => ?_
    rw [hc row, matches_comm, matches_of_slot hs htext, Bool.and_comm]
  · rename_i hright hleft
    refine (toScalar_text? hD _ p).bind fun x hx => (toScalar_text? hD _ q).bind fun y hy row => ?_
    rw [Condition.eval_equal_iff hD, hx row, hy row]
    refine ⟨fun htexts => ⟨htexts, fun s text hs htext => ?_, fun s text hs htext => ?_⟩,
      fun h => h.texts⟩
    · exact (hleft s text hs htext).elim
    · exact (hright s text hs htext).elim

theorem residualConditions_holds (pairs : List (Pattern × Pattern)) :
    (residualConditions columns pairs).Meets Fault.Any fun cs => ∀ row,
      (∀ c ∈ cs, c.eval D row = .yes) ↔
        ∀ pair ∈ pairs, pair.1.Matches (columns.slots row) pair.2 := by
  induction pairs with
  | nil => exact fun _ => by simp
  | cons pair pairs ih =>
    refine (residualCondition_holds hD pair.1 pair.2).bind fun c hc => ih.bind fun cs hcs row => ?_
    rw [List.forall_mem_cons, List.forall_mem_cons, hc row, hcs row]

/-- The condition for two patterns is true exactly where they equate. -/
theorem equality_holds (p q : Pattern) :
    (p.equality columns q).Meets Fault.Any fun c => ∀ row,
      c.eval D row = .yes ↔ p.Equates (columns.slots row) q := by
  unfold equality compare Equates
  cases reduce p.escaped q.escaped p.symbols q.symbols with
  | none =>
    intro row
    simp [Condition.eval]
  | some pairs =>
    refine (residualConditions_holds hD pairs).map fun cs hcs row => ?_
    rw [Condition.eval_all, hcs row]
    simp

end

/-! ### Conditions on constants -/

variable {constant : String} {escaped : Bool} {pairs : List (Pattern × Pattern)}
variable {pair : Pattern × Pattern}

/-- Of a constant only constants are left over. -/
theorem isConstant_of_reduce
    (h : reduce escaped p.escaped (ofText constant escaped).symbols p.symbols = some pairs)
    (hpair : pair ∈ pairs) : pair.1.isConstant = true :=
  List.all_eq_true.mpr fun x hx => List.all_eq_true.mp (isConstant_map escaped constant.toList) x
    ((subset_of_reduce h hpair).1 hx)

/-- What a pair with a constant on the left says, where the values are written as their types
prescribe. -/
theorem matches_iff_of_isConstant (hl : l.isConstant = true)
    (hlexical : ∀ s, .slot s ∈ r.symbols → ∀ text, ρ s = some text → s.type.isLexical text = true)
    (hpercent : (l.escaped && r.escaped) = true → .char '%' ∉ r.symbols) :
    l.Matches ρ r ↔ r.Filled ρ ∧
      decodeText (l.escaped && r.escaped) (String.ofList l.chars) = r.render ρ.fill := by
  have htext : l.constant? = some (String.ofList l.chars) := if_pos hl
  constructor
  · intro h
    obtain ⟨text, hleft, hright⟩ := h.texts
    rw [text?_of_constant? htext, Option.some_inj] at hleft
    obtain ⟨hfilled, hrender⟩ := (text?_eq_some_iff hpercent).mp hright
    exact ⟨hfilled, hleft.trans hrender.symm⟩
  · rintro ⟨hfilled, hsame⟩
    have hright := text?_eq_some hfilled hpercent
    refine ⟨⟨_, text?_of_constant? htext, hsame ▸ hright⟩, fun s text hs _ => ?_,
      fun s text hs hc => ?_⟩
    · rw [constant?_eq_none hs] at htext
      cases htext
    · cases htext.symm.trans hc
      rw [text?_of_items_eq_slot hs] at hright
      exact hlexical s (slot_mem_items (hs ▸ List.mem_cons_self)) _ (hsame ▸ hright)

/-- What the condition for a constant says, where the values are written as their types
prescribe. -/
theorem equates_ofText_iff
    (hlexical : ∀ s, .slot s ∈ p.symbols → ∀ text, ρ s = some text → s.type.isLexical text = true)
    (hpercent : (escaped && p.escaped) = true → .char '%' ∉ p.symbols) :
    (ofText constant escaped).Equates ρ p ↔ p.Filled ρ ∧
      ∃ pairs, reduce escaped p.escaped (ofText constant escaped).symbols p.symbols = some pairs ∧
        ∀ pair ∈ pairs, decodeText (escaped && p.escaped) (String.ofList pair.1.chars) =
          pair.2.render ρ.fill := by
  have hchars : (ofText constant escaped).symbols.all Symbol.isChar = true :=
    isConstant_map escaped constant.toList
  have hpair : ∀ {pairs : List (Pattern × Pattern)},
      reduce escaped p.escaped (ofText constant escaped).symbols p.symbols = some pairs →
        ∀ pair ∈ pairs, pair.1.Matches ρ pair.2 ↔ pair.2.Filled ρ ∧
          decodeText (escaped && p.escaped) (String.ofList pair.1.chars) =
            pair.2.render ρ.fill := by
    intro pairs hpairs pair hpair
    have hright := (subset_of_reduce hpairs hpair).2
    obtain ⟨⟨hl, hr⟩, -⟩ := of_mem_reduce hpairs hpair
    rw [← hl, ← hr]
    refine matches_iff_of_isConstant (isConstant_of_reduce hpairs hpair)
      (fun s hs => hlexical s (hright hs)) fun h hc => ?_
    exact hpercent (hl ▸ hr ▸ h) (hright hc)
  constructor
  · rintro ⟨pairs, hpairs, h⟩
    refine ⟨fun s hs => ?_, pairs, hpairs, fun pair hmem =>
      ((hpair hpairs pair hmem).mp (h pair hmem)).2⟩
    obtain ⟨pair, hmem, hs⟩ := slot_mem_of_reduce hchars hpairs hs
    exact ((hpair hpairs pair hmem).mp (h pair hmem)).1 s hs
  · rintro ⟨hfilled, pairs, hpairs, h⟩
    refine ⟨pairs, hpairs, fun pair hmem =>
      (hpair hpairs pair hmem).mpr ⟨fun s hs => ?_, h pair hmem⟩⟩
    exact hfilled s ((subset_of_reduce hpairs hmem).2 hs)

/-- A constant that spells a text equates with an escaped pattern where this is its text. -/
theorem equates_ofText_iff_of_spells {S : Text.Separators} (hp : p.escaped = true)
    (hlexical : ∀ s, .slot s ∈ p.symbols → ∀ text, ρ s = some text → s.type.isLexical text = true)
    (hseparated : Separated S ρ.fill p.symbols) (hspells : ∃ u, S.Spells constant.toList u) :
    (ofText constant true).Equates ρ p ↔ p.text? false ρ = some (Text.percentDecode constant) := by
  have hpercent : .char '%' ∉ p.symbols := fun hc =>
    Text.Separators.ne_percent (hseparated.chars _ hc) rfl
  have hdecodes : ∀ cs q, decodeText true (String.ofList cs) = render q ρ.fill ↔
      Text.decodeChars cs = textOf ρ.fill q.symbols := by
    intro cs q
    rw [← String.toList_inj, render, String.toList_ofList]
    show (Text.percentDecode (String.ofList cs)).toList = _ ↔ _
    rw [Text.toList_percentDecode, String.toList_ofList]
  rw [equates_ofText_iff hlexical fun _ => hpercent, text?_eq_some_iff (fun h => by cases h), hp]
  simp only [Bool.and_self, hdecodes]
  refine and_congr_right fun _ => (decodes_iff hspells hseparated).trans ?_
  rw [← hdecodes, String.ofList_toList]
  exact eq_comm

/-- A constant equates with a constant pattern if the two are the same. -/
theorem equates_ofText_iff_of_isConstant (hp : p.isConstant = true) :
    (ofText constant true).Equates ρ p ↔ p.text? false ρ = some constant := by
  have hnil : ∀ {pairs : List (Pattern × Pattern)},
      reduce true p.escaped (ofText constant true).symbols p.symbols = some pairs →
        ∀ pair, pair ∉ pairs := by
    intro pairs hpairs pair hpair
    have hr : pair.2.isConstant = true := List.all_eq_true.mpr fun x hx =>
      List.all_eq_true.mp hp x ((subset_of_reduce hpairs hpair).2 hx)
    have hnot := (of_mem_reduce hpairs hpair).2
    rw [isConstant_of_reduce hpairs hpair, hr] at hnot
    cases hnot
  -- Constants have no slots, so any values do.
  have hsame : p.text? false ρ = some constant ↔
      textOf (fun _ => "") (ofText constant true).symbols = textOf (fun _ => "") p.symbols := by
    rw [text?_of_constant? (if_pos hp), textOf_of_isConstant hp, ofText, textOf_chars,
      Option.some_inj, ← String.toList_inj]
    show (String.ofList p.chars).toList = _ ↔ _
    rw [String.toList_ofList, eq_comm]
  rw [hsame]
  constructor
  · rintro ⟨pairs, hpairs, -⟩
    exact textOf_eq_of_reduce _ _ _ _ hpairs fun pair hpair => absurd hpair (hnil hpairs pair)
  · intro h
    obtain ⟨pairs, hpairs, -⟩ := reduce_of_textOf_eq true p.escaped _ _ (fun _ _ =>
      ⟨fun _ _ hc => absurd hc List.not_mem_nil, fun _ _ hc => absurd hc List.not_mem_nil⟩) h
    exact ⟨pairs, hpairs, fun pair hpair => absurd hpair (hnil hpairs pair)⟩

/-- A constant equates with a pattern that is not escaped where it is its text. -/
theorem equates_ofText_iff_of_not_escaped (hp : p.escaped = false)
    (hlexical : ∀ s, .slot s ∈ p.symbols → ∀ text, ρ s = some text → s.type.isLexical text = true) :
    (ofText constant true).Equates ρ p ↔ p.text? false ρ = some constant := by
  have hfalse : (true && p.escaped) = false := by rw [hp, Bool.and_false]
  have hrender : ∀ {pairs : List (Pattern × Pattern)},
      reduce true p.escaped (ofText constant true).symbols p.symbols = some pairs →
        ∀ pair ∈ pairs, decodeText (true && p.escaped) (String.ofList pair.1.chars) =
          pair.1.render ρ.fill := by
    intro pairs hpairs pair hpair
    rw [hfalse, render_of_constant? (if_pos (isConstant_of_reduce hpairs hpair))]
    rfl
  have hsame : p.render ρ.fill = constant ↔
      textOf ρ.fill (ofText constant true).symbols = textOf ρ.fill p.symbols := by
    rw [← render_eq_iff, render_ofText, eq_comm]
  rw [equates_ofText_iff hlexical fun h => absurd (hfalse.symm.trans h) Bool.false_ne_true,
    text?_eq_some_iff (fun h => by cases h), hsame]
  refine and_congr_right fun _ => ⟨?_, fun h => ?_⟩
  · rintro ⟨pairs, hpairs, h⟩
    refine textOf_eq_of_reduce _ _ _ _ hpairs fun pair hpair => ?_
    rw [← hrender hpairs pair hpair, h pair hpair]
  · obtain ⟨pairs, hpairs, hagree⟩ := reduce_of_textOf_eq true p.escaped _ _
      (fun _ h => absurd (hp.symm.trans h) Bool.false_ne_true) h
    refine ⟨pairs, hpairs, fun pair hpair => ?_⟩
    rw [hrender hpairs pair hpair, hagree pair hpair]

end Pattern

namespace BoundTerm

/-- What the condition for two terms says of the values of their slots. -/
def Equates (ρ : Slots) (a b : BoundTerm) :
    Prop := a.shape = b.shape ∧ a.pattern.Equates ρ b.pattern

variable {a b : BoundTerm}

theorem equates_comm : a.Equates ρ b ↔ b.Equates ρ a :=
  and_congr eq_comm Pattern.equates_comm

theorem equality_holds (hD : D.Textual) (a b : BoundTerm) :
    (a.equality columns b).Meets Fault.Any fun c => ∀ row,
      c.eval D row = .yes ↔ a.Equates (columns.slots row) b := by
  unfold equality
  split
  · rename_i hshape
    refine (Pattern.equality_holds hD a.pattern b.pattern).mono fun c hc row => ?_
    rw [hc row]
    exact (and_iff_right hshape).symm
  · rename_i hshape
    intro row
    simp [Condition.eval, Equates, hshape]

theorem Equates.canEqual (h : a.Equates ρ b) : a.canEqual b = true := by
  obtain ⟨hshape, pairs, hpairs, -⟩ := h
  simp [BoundTerm.canEqual, hshape, Pattern.compare, hpairs, Comparison.neverMatch]

end BoundTerm

end VirtualGraph
