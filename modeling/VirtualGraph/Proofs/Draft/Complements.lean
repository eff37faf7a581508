import VirtualGraph.Proofs.Draft.Present
import VirtualGraph.Proofs.Draft.Values

/-!
# Equality and inequality

Two terms are compared by their patterns if one of them is an IRI, and by their values otherwise.
The condition that two patterns give the same text is true or false wherever their columns have
values, and the inequality is its negation. Values are compared by the two operators, but the
equality of terms that are known to differ in their kind or language is false without a look at the
values. So equality and inequality exclude each other on every row, and one of them is true where
the operands are not null, unless the operands are different terms with the same value.
-/

namespace VirtualGraph

variable {α : Type} {D : ValueDomain α} {row : Row α} {columns : ColumnIndex}

/-! ### Conditions that are true or false -/

namespace Truth

theorem not_eq_yes {t : Truth} : t.not = yes ↔ t = no := by
  cases t <;> simp [not]

theorem all_ne_unknown {ts : List Truth} (h : ∀ t ∈ ts, t ≠ unknown) : all ts ≠ unknown := by
  intro hall
  have hno : no ∉ ts := fun hno => by simp [all_eq_no.mpr hno] at hall
  have hyes : all ts = yes := all_eq_yes.mpr fun t ht => by
    cases t with
    | no => exact absurd ht hno
    | unknown => exact absurd rfl (h _ ht)
    | yes => rfl
  simp [hyes] at hall

theorem ofBool_ne_unknown (b : Bool) : ofBool b ≠ unknown := by
  cases b <;> simp [ofBool]

end Truth

namespace Condition

theorem eval_compare_ne_unknown {op : Comparator} {x y : Scalar} (hx : x.eval D row ≠ none)
    (hy : y.eval D row ≠ none) : (compare op x y).eval D row ≠ .unknown := by
  obtain ⟨a, ha⟩ := Option.ne_none_iff_exists'.mp hx
  obtain ⟨b, hb⟩ := Option.ne_none_iff_exists'.mp hy
  rw [eval, ha, hb]
  exact Truth.ofBool_ne_unknown _

theorem eval_compare_eq_yes {op : Comparator} {x y : Scalar} :
    (compare op x y).eval D row = .yes ↔
      ∃ u v, x.eval D row = some u ∧ y.eval D row = some v ∧ op.holds (D.order u v) = true := by
  rw [eval]
  cases x.eval D row with
  | none => simp
  | some u => cases y.eval D row <;> simp

theorem eval_sameValue_ne_unknown {x y : Scalar} (hx : x.eval D row ≠ none)
    (hy : y.eval D row ≠ none) : (sameValue x y).eval D row ≠ .unknown := by
  obtain ⟨a, ha⟩ := Option.ne_none_iff_exists'.mp hx
  obtain ⟨b, hb⟩ := Option.ne_none_iff_exists'.mp hy
  rw [eval, ha, hb]
  exact Truth.ofBool_ne_unknown _

theorem eval_equal_ne_unknown {x y : Scalar} (hx : x.eval D row ≠ none)
    (hy : y.eval D row ≠ none) : (equal x y).eval D row ≠ .unknown := by
  have h := eval_sameValue_ne_unknown hx hy
  cases x <;> cases y <;> exact h

theorem eval_all_ne_unknown {cs : List Condition} (h : ∀ c ∈ cs, c.eval D row ≠ .unknown) :
    (all cs).eval D row ≠ .unknown := by
  rcases cs with _ | ⟨c, _ | ⟨d, cs⟩⟩
  · simp [all, eval]
  · exact h c List.mem_cons_self
  · show (Condition.and (c :: d :: cs)).eval D row ≠ .unknown
    rw [eval, evalEach_eq_map]
    refine Truth.all_ne_unknown fun t ht => ?_
    obtain ⟨c, hc, rfl⟩ := List.mem_map.mp ht
    exact h c hc

end Condition

/-! ### Patterns -/

namespace Scalar

theorem ne_none_of_evalAll {xs : List Scalar} (h : evalAll D row xs ≠ none) :
    ∀ x ∈ xs, x.eval D row ≠ none := by
  induction xs with
  | nil => exact fun _ hx => absurd hx List.not_mem_nil
  | cons x xs ih =>
    rw [evalAll] at h
    cases hx : x.eval D row with
    | none => simp [hx] at h
    | some a =>
      cases hxs : evalAll D row xs with
      | none => simp [hxs] at h
      | some as =>
        refine List.forall_mem_cons.mpr ⟨by simp [hx], ih ?_⟩
        simp [hxs]

theorem eval_join_ne_none_iff {xs : List Scalar} :
    (join xs).eval D row ≠ none ↔ ∀ x ∈ xs, x.eval D row ≠ none := by
  refine ⟨fun h => ?_, eval_join_ne_none⟩
  rcases xs with _ | ⟨x, _ | ⟨y, xs⟩⟩
  · exact fun _ hx => absurd hx List.not_mem_nil
  · exact fun z hz => List.mem_singleton.mp hz ▸ h
  · refine ne_none_of_evalAll fun hnone => h ?_
    show (concat (x :: y :: xs)).eval D row = none
    rw [eval, hnone]
    rfl

end Scalar

/-- The column of a slot has a value on a row. -/
def Slot.Present (columns : ColumnIndex) (row : Row α) (s : Slot) : Prop :=
  ∀ v, columns.get s.row s.column = .ok v → row v ≠ none

theorem Slot.Present.get {s : Slot} (h : s.Present columns row) :
    (columns.get s.row s.column).Meets Fault.Any fun v => row v ≠ none := by
  cases hv : columns.get s.row s.column with
  | error f => trivial
  | ok v => exact h v hv

theorem PatternItem.toScalars_ne_none_iff (D : ValueDomain α) (row : Row α) (decode : Bool)
    (items : List PatternItem) : (toScalars columns decode items).Meets Fault.Any fun xs =>
      (∀ x ∈ xs, x.eval D row ≠ none) ↔ ∀ s, .slot s ∈ items → s.Present columns row := by
  induction items with
  | nil => simp [toScalars, Result.Meets]
  | cons item items ih =>
    have hitem : (item.toScalar columns decode).Meets Fault.Any fun x =>
        x.eval D row ≠ none ↔ ∀ s, item = .slot s → s.Present columns row := by
      cases item with
      | text t => simp [toScalar, Result.Meets, Scalar.ofText, Scalar.eval]
      | slot s =>
        show Result.Meets _ _ ((columns.get s.row s.column).map Scalar.column)
        cases hv : columns.get s.row s.column with
        | error f => trivial
        | ok v =>
          show row v ≠ none ↔ _
          simp [Slot.Present, hv]
    refine hitem.bind fun x hx => ih.bind fun xs hxs => ?_
    show (∀ y ∈ x :: xs, _) ↔ _
    rw [List.forall_mem_cons, hx, hxs]
    simp only [List.mem_cons]
    constructor
    · rintro ⟨hfirst, hrest⟩ s (h | h)
      · exact hfirst s h.symm
      · exact hrest s h
    · intro h
      exact ⟨fun s hs => h s (.inl hs.symm), fun s hs => h s (.inr hs)⟩

namespace Pattern

/-- The columns of a pattern have values on a row. -/
def Present (columns : ColumnIndex) (row : Row α) (p : Pattern) : Prop :=
  ∀ s, .slot s ∈ p.symbols → s.Present columns row

variable {p q : Pattern} {s : Slot}

theorem Present.of_subset (h : p.Present columns row) (hpq : q.symbols ⊆ p.symbols) :
    q.Present columns row :=
  fun s hs => h s (hpq hs)

theorem present_ofText (text : String) (escaped : Bool) :
    (ofText text escaped).Present columns row := by
  intro s hs
  simp [ofText] at hs

theorem Present.slot (h : p.Present columns row) (hs : p.items = [.slot s]) :
    s.Present columns row :=
  h s (slot_mem_items (hs ▸ List.mem_cons_self))

/-- The text of a pattern is null where one of its columns is. -/
theorem toScalar_ne_none_iff (D : ValueDomain α) (row : Row α) (decode : Bool) (p : Pattern) :
    (p.toScalar columns decode).Meets Fault.Any fun x =>
      x.eval D row ≠ none ↔ p.Present columns row := by
  refine (PatternItem.toScalars_ne_none_iff D row decode p.items).map fun xs hxs => ?_
  rw [Scalar.eval_join_ne_none_iff, hxs]
  exact ⟨fun h s hs => h s (slot_mem_items_of_mem hs), fun h s hs => h s (slot_mem_items hs)⟩

theorem slotEquals_ne_unknown (hs : s.Present columns row) (text : String) :
    (slotEquals columns s text).Meets Fault.Any fun c => c.eval D row ≠ .unknown := by
  unfold slotEquals
  split
  · exact hs.get.map fun v hv =>
      Condition.eval_compare_ne_unknown (x := .column v) hv (Option.some_ne_none _)
  · exact fun h => by simp [Condition.eval] at h

theorem residualCondition_ne_unknown (hp : p.Present columns row) (hq : q.Present columns row) :
    (residualCondition columns p q).Meets Fault.Any fun c => c.eval D row ≠ .unknown := by
  unfold residualCondition
  split
  · rename_i ha hb
    refine (hp.slot ha).get.bind fun v hv => (hq.slot hb).get.bind fun w hw => ?_
    exact Condition.eval_sameValue_ne_unknown (x := .column v) (y := .column w) hv hw
  · rename_i hs _ _
    exact slotEquals_ne_unknown (hp.slot hs) _
  · rename_i hs _ _
    exact slotEquals_ne_unknown (hq.slot hs) _
  · exact (toScalar_ne_none_iff D row _ p).bind fun _ hx => (toScalar_ne_none_iff D row _ q).bind
      fun _ hy => Condition.eval_equal_ne_unknown (hx.mpr hp) (hy.mpr hq)

theorem residualConditions_ne_unknown {pairs : List (Pattern × Pattern)}
    (h : ∀ pair ∈ pairs, pair.1.Present columns row ∧ pair.2.Present columns row) :
    (residualConditions columns pairs).Meets Fault.Any
      fun cs => ∀ c ∈ cs, c.eval D row ≠ .unknown := by
  induction pairs with
  | nil => exact fun _ hc => absurd hc List.not_mem_nil
  | cons pair pairs ih =>
    obtain ⟨hpair, hpairs⟩ := List.forall_mem_cons.mp h
    exact (residualCondition_ne_unknown hpair.1 hpair.2).bind fun _ hc => (ih hpairs).bind
      fun _ hcs => List.forall_mem_cons.mpr ⟨hc, hcs⟩

/-- Whether two patterns give the same text is decided where their columns have values. -/
theorem equality_ne_unknown (hp : p.Present columns row) (hq : q.Present columns row) :
    (p.equality columns q).Meets Fault.Any fun c => c.eval D row ≠ .unknown := by
  unfold equality compare
  cases hpairs : reduce p.escaped q.escaped p.symbols q.symbols with
  | none => exact fun h => by simp [Condition.eval] at h
  | some pairs =>
    refine (residualConditions_ne_unknown fun pair hpair => ?_).map
      fun _ h => Condition.eval_all_ne_unknown h
    obtain ⟨hl, hr⟩ := subset_of_reduce hpairs hpair
    exact ⟨hp.of_subset hl, hq.of_subset hr⟩

end Pattern

theorem BoundTerm.equality_ne_unknown {a b : BoundTerm} (ha : a.pattern.Present columns row)
    (hb : b.pattern.Present columns row) :
    (a.equality columns b).Meets Fault.Any fun c => c.eval D row ≠ .unknown := by
  unfold equality
  split
  · exact Pattern.equality_ne_unknown ha hb
  · exact fun h => by simp [Condition.eval] at h

/-! ### Comparisons -/

namespace Expression

variable {s : ExpressionScope} {a b other : Expression} {x y : Computed}

/-- Both operands are terms of known patterns, and one of them is an IRI. -/
def ComparesTerms (s : ExpressionScope) (a b : Expression) : Prop :=
  ∃ t u, a.term? s = some t ∧ b.term? s = some u ∧
    (t.shape.termType = .iri ∨ u.shape.termType = .iri)

theorem operand_var (s : ExpressionScope) (name : String) (other : Expression) :
    operand s (var name) other = s.variableValue name := by
  show (s.variableValue name >>= fun v => _) = _
  cases s.variableValue name <;> rfl

theorem operand_iri (s : ExpressionScope) (i : String) (other : Expression) :
    ∃ text, operand s (constant (.iri i)) other =
      .ok ⟨.constant text .string, .string, .known .iri, false, false⟩ := by
  cases h : isEscapedVariable s other with
  | false => exact ⟨i, by simp [operand, value, h, bind, Except.bind]⟩
  | true => exact ⟨Text.percentDecode i, by simp [operand, value, h, bind, Except.bind]⟩

/-- An operand that is a term is null where a column of its pattern is. -/
theorem operand_ne_none_iff {t : BoundTerm} (ht : a.term? s = some t)
    (hx : operand s a other = .ok x) (D : ValueDomain α) (row : Row α) :
    x.scalar.eval D row ≠ none ↔ t.pattern.Present s.columns row := by
  unfold term? at ht
  split at ht
  · rename_i name
    split at ht
    · rename_i t' hb
      cases ht
      rw [operand_var, ExpressionScope.variableValue, hb, Result.bind_eq_ok] at hx
      obtain ⟨y, hy, hx⟩ := hx
      cases hx
      have hiff : (t.pattern.toScalar s.columns false).Meets _ _ :=
        t.pattern.toScalar_ne_none_iff D row false
      rw [show t.pattern.toScalar s.columns false = .ok y from hy] at hiff
      exact hiff
    · cases ht
  · rename_i i
    cases ht
    obtain ⟨text, hi⟩ := operand_iri s i other
    cases hi.symm.trans hx
    exact iff_of_true (Option.some_ne_none _) (Pattern.present_ofText i true)
  · cases ht

theorem comparison_of_comparesTerms {t u : BoundTerm} (ht : a.term? s = some t)
    (hu : b.term? s = some u) (hiri : t.shape.termType = .iri ∨ u.shape.termType = .iri) :
    comparison s .eq a b = t.equality s.columns u ∧
      comparison s .ne a b = (t.equality s.columns u).map .not := by
  simp only [comparison, ht, hu, if_pos hiri, and_self]

theorem comparison_of_not_comparesTerms (h : ¬ComparesTerms s a b) (op : Comparator) :
    comparison s op a b = compareValues s op a b := by
  unfold comparison
  split
  · rename_i t u ht hu
    exact if_neg fun hiri => h ⟨t, u, ht, hu, hiri⟩
  · rename_i t u ht hu
    exact if_neg fun hiri => h ⟨t, u, ht, hu, hiri⟩
  · rfl

theorem compareValues_eq (op : Comparator) (hx : operand s a b = .ok x)
    (hy : operand s b a = .ok y) :
    compareValues s op a b = .ok (if op = .eq ∧ x.shape.disjoint y.shape then .never
      else .compare op x.scalar y.scalar) := by
  show (operand s a b >>= fun x => operand s b a >>= fun y => _) = _
  rw [hx, hy]
  show (if _ then _ else _) = _
  split <;> rfl

/-- The inequality of two terms is the negation of their equality, which is decided where both are
not null. -/
theorem complementary_terms {ce cn : Condition} (h : ComparesTerms s a b)
    (heq : comparison s .eq a b = .ok ce) (hne : comparison s .ne a b = .ok cn)
    (hx : operand s a b = .ok x) (hy : operand s b a = .ok y) :
    cn = .not ce ∧ ∀ (D : ValueDomain α) (row : Row α), x.scalar.eval D row ≠ none →
      y.scalar.eval D row ≠ none → ce.eval D row ≠ .unknown := by
  obtain ⟨t, u, ht, hu, hiri⟩ := h
  obtain ⟨heq', hne'⟩ := comparison_of_comparesTerms ht hu hiri
  rw [heq] at heq'
  rw [← heq', hne] at hne'
  refine ⟨Except.ok.inj hne', fun D row hxvalue hyvalue => ?_⟩
  have hdecided := BoundTerm.equality_ne_unknown (D := D)
    ((operand_ne_none_iff ht hx D row).mp hxvalue) ((operand_ne_none_iff hu hy D row).mp hyvalue)
  rwa [← heq'] at hdecided

/-- A term is not null where the columns are not. -/
theorem operand_ne_none {t : BoundTerm} (ht : a.term? s = some t)
    (hx : operand s a other = .ok x) (hcolumns : s.columns.Filled row) :
    x.scalar.eval D row ≠ none := by
  refine (operand_ne_none_iff ht hx D row).mpr fun slot _ v hv => ?_
  have hget := hcolumns.get slot.row slot.column
  rwa [hv] at hget

/-- Where an equality and an inequality of the same operands have conditions, these exclude each
other on every row. On a row where both operands have values one of the conditions is true, unless
the operands are compared by their values, which are equal, though they are known to be terms of
different kinds or languages. On a row where one operand is null, and no column is, neither
condition is true. -/
theorem compare_complementary {ce cn : Condition}
    (heq : (compare .eq a b).condition s = .ok ce) (hne : (compare .ne a b).condition s = .ok cn)
    (hx : operand s a b = .ok x) (hy : operand s b a = .ok y) (D : ValueDomain α) (row : Row α) :
    ¬(ce.eval D row = .yes ∧ cn.eval D row = .yes) ∧
      (∀ u v, x.scalar.eval D row = some u → y.scalar.eval D row = some v →
        ((ce.eval D row = .yes ∨ cn.eval D row = .yes) ↔
          ComparesTerms s a b ∨ x.shape.disjoint y.shape = false ∨ D.order u v ≠ .eq)) ∧
      (s.columns.Filled row → x.scalar.eval D row = none ∨ y.scalar.eval D row = none →
        ce.eval D row ≠ .yes ∧ cn.eval D row ≠ .yes) := by
  -- The equality of terms is decided where their columns have values. That of values is false as
  -- soon as the shapes are known to differ, though the inequality need not be true then.
  by_cases h : ComparesTerms s a b
  · obtain ⟨rfl, hdecided⟩ := complementary_terms h heq hne hx hy
    rw [Condition.eval, Truth.not_eq_yes]
    refine ⟨fun hboth => ?_, fun u v hu hv => iff_of_true ?_ (.inl h), fun hcolumns hnull => ?_⟩
    · cases hboth.1.symm.trans hboth.2
    · have := hdecided D row (by simp [hu]) (by simp [hv])
      cases hce : ce.eval D row with
      | no => exact .inr rfl
      | unknown => exact absurd hce this
      | yes => exact .inl rfl
    · obtain ⟨t, u, ht, hu, -⟩ := h
      exact (hnull.elim (operand_ne_none ht hx hcolumns) (operand_ne_none hu hy hcolumns)).elim
  · have hce := (comparison_of_not_comparesTerms h .eq).symm.trans heq
    have hcn := (comparison_of_not_comparesTerms h .ne).symm.trans hne
    rw [compareValues_eq _ hx hy] at hce hcn
    have hequal : ce.eval D row = .yes ↔ x.shape.disjoint y.shape = false ∧
        (Condition.compare .eq x.scalar y.scalar).eval D row = .yes := by
      rw [← Except.ok.inj hce]
      cases x.shape.disjoint y.shape <;> simp [Condition.eval]
    have hdifferent : cn = .compare .ne x.scalar y.scalar := (Except.ok.inj hcn).symm
    simp only [ne_eq, hequal, hdifferent, Condition.eval_compare_eq_yes]
    refine ⟨?_, fun u v hu hv => ?_, fun _ hnull => ?_⟩
    · rintro ⟨⟨-, u, v, hu, hv, hsame⟩, u', v', hu', hv', hother⟩
      obtain rfl := Option.some_inj.mp (hu.symm.trans hu')
      obtain rfl := Option.some_inj.mp (hv.symm.trans hv')
      cases ho : D.order u v <;> simp [ho, Comparator.holds] at hsame hother
    · cases ho : D.order u v <;> simp [hu, hv, ho, h, Comparator.holds]
    · obtain hnull | hnull := hnull <;> simp [hnull]

/-- Texts in two languages: they are never equal as terms, and different where their texts are. -/
theorem compare_complementary_languages :
    let s : ExpressionScope := ⟨[⟨.column "n", .string, true⟩], [],
      [("x", .value 0 (.known ⟨.literal, none, some "de"⟩) true false)]⟩
    let a := var "x"
    let b := constant (.literal ⟨"a", none, some "en"⟩)
    let ce := Condition.never
    let cn := Condition.compare .ne (.column 0) (.constant "a" .string)
    (compare .eq a b).condition s = .ok ce ∧ (compare .ne a b).condition s = .ok cn ∧
      (ce.eval .texts (fun _ => some "b") = .yes ∨ cn.eval .texts (fun _ => some "b") = .yes) ∧
      ce.eval .texts Row.null ≠ .yes ∧ cn.eval .texts Row.null ≠ .yes := by
  intro s a b ce cn
  have heq : (compare .eq a b).condition s = .ok ce := rfl
  have hne : (compare .ne a b).condition s = .ok cn := rfl
  obtain ⟨-, hvalues, -⟩ :=
    compare_complementary heq hne rfl rfl ValueDomain.texts fun _ => some "b"
  obtain ⟨-, -, hnull⟩ := compare_complementary heq hne rfl rfl ValueDomain.texts Row.null
  refine ⟨heq, hne, (hvalues "b" "a" rfl rfl).mpr (.inr (.inr (by decide))), ?_⟩
  exact hnull (fun e he => absurd he List.not_mem_nil) (.inl rfl)

/-- Two terms with the same text in different languages are neither equal nor different. -/
theorem compare_not_complementary :
    let s : ExpressionScope := ⟨[⟨.column "n", .string, false⟩], [((0, "n"), 0)],
      [("x", .term ⟨.ofSlot ⟨0, "n", .string⟩ false, ⟨.literal, none, some "de"⟩⟩)]⟩
    let a := var "x"
    let b := constant (.literal ⟨"a", none, some "en"⟩)
    let row : Row String := fun _ => some "a"
    ∃ x y ce cn, operand s a b = .ok x ∧ operand s b a = .ok y ∧
      (compare .eq a b).condition s = .ok ce ∧ (compare .ne a b).condition s = .ok cn ∧
      x.scalar.eval .texts row = some "a" ∧ y.scalar.eval .texts row = some "a" ∧
      ce.eval .texts row = .no ∧ cn.eval .texts row = .no :=
  ⟨_, _, _, _, rfl, rfl, rfl, rfl, rfl, rfl, rfl, by decide⟩

end Expression

end VirtualGraph
