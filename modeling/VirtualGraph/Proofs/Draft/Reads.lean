import VirtualGraph.Draft.Expression
import VirtualGraph.Proofs.Block.WellBuilt
import VirtualGraph.Proofs.Pattern.Comparison

/-!
# What bindings and expressions read

A binding is in scope of a block when the columns of its pattern are read by the block, or the
variable that holds its text is bound there, and so are the variables that its shape depends on.
From bindings in scope come scalars and conditions over the variables of the block; no column is
ever missing, and the only fault is an expression that has no such form.
-/

namespace VirtualGraph

namespace Pattern

variable {p : Pattern} {s : Slot}

theorem slot_mem_addSymbol {x : Symbol} {items : List PatternItem}
    (h : .slot s ∈ addSymbol x items) : x = .slot s ∨ .slot s ∈ items := by
  cases x with
  | slot s' =>
    rw [addSymbol, List.mem_cons] at h
    exact h.imp (fun h => by cases h; rfl) id
  | char c =>
    cases items with
    | nil => simp [addSymbol] at h
    | cons item items => cases item <;> simpa [addSymbol] using h

theorem slot_mem_items (h : .slot s ∈ p.items) : .slot s ∈ p.symbols := by
  rw [items] at h
  generalize p.symbols = symbols at h ⊢
  induction symbols with
  | nil => exact absurd h List.not_mem_nil
  | cons x symbols ih =>
    obtain rfl | h := slot_mem_addSymbol h
    · exact List.mem_cons_self
    · exact List.mem_cons_of_mem _ (ih h)

end Pattern

namespace ColumnIndex

/-- Every column that a pattern reads is in the index. -/
def Covers (columns : ColumnIndex) (p : Pattern) : Prop :=
  ∀ s, .slot s ∈ p.symbols → (columns.lookup (s.row, s.column)).isSome

/-- The variables of the columns are among given ones. -/
def Within (columns : ColumnIndex) (vs : List Variable) : Prop := ∀ e ∈ columns, e.2 ∈ vs

variable {columns : ColumnIndex} {vs : List Variable}

theorem Within.get (h : columns.Within vs) {row : Nat} {name : String}
    (hc : (columns.lookup (row, name)).isSome) :
    (columns.get row name).Meets Fault.Excluded (· ∈ vs) := by
  obtain ⟨v, hv⟩ := Option.isSome_iff_exists.mp hc
  rw [ColumnIndex.get, hv]
  exact h ((row, name), v) (mem_of_lookup hv)

theorem covers_ofText (text : String) (escaped : Bool) : columns.Covers (.ofText text escaped) := by
  intro s hs
  simp [Pattern.ofText] at hs

theorem Covers.of_subset {p q : Pattern} (h : columns.Covers p) (hpq : q.symbols ⊆ p.symbols) :
    columns.Covers q :=
  fun s hs => h s (hpq hs)

end ColumnIndex

theorem Scalar.referencedAll_subset {xs : List Scalar} {vs : List Variable} :
    Scalar.referencedAll xs ⊆ vs ↔ ∀ x ∈ xs, x.referenced ⊆ vs := by
  induction xs with
  | nil => simp [Scalar.referencedAll]
  | cons x xs ih => simp [Scalar.referencedAll, ih]

theorem Scalar.referenced_join {xs : List Scalar} {vs : List Variable}
    (h : Scalar.referencedAll xs ⊆ vs) : (Scalar.join xs).referenced ⊆ vs := by
  match xs with
  | [] => exact List.nil_subset vs
  | [x] => exact Scalar.referencedAll_subset.mp h x List.mem_cons_self
  | x :: y :: xs => exact h

theorem Condition.referenced_all {cs : List Condition} {vs : List Variable}
    (h : Condition.referencedAll cs ⊆ vs) : (Condition.all cs).referenced ⊆ vs := by
  match cs with
  | [] => exact List.nil_subset vs
  | [c] => exact Condition.referencedAll_subset.mp h c List.mem_cons_self
  | c :: d :: cs => exact h

theorem Condition.referenced_equal {x y : Scalar} {vs : List Variable} (hx : x.referenced ⊆ vs)
    (hy : y.referenced ⊆ vs) : (Condition.equal x y).referenced ⊆ vs := by
  have h := List.append_subset.mpr ⟨hx, hy⟩
  cases x <;> cases y <;> exact h

section Equality

open ColumnIndex

variable {columns : ColumnIndex} {vs : List Variable} {p q : Pattern}

theorem PatternItem.toScalars_meets (hcolumns : columns.Within vs) (decode : Bool)
    {items : List PatternItem}
    (h : ∀ s, .slot s ∈ items → (columns.lookup (s.row, s.column)).isSome) :
    (PatternItem.toScalars columns decode items).Meets Fault.Excluded
      fun xs => Scalar.referencedAll xs ⊆ vs := by
  induction items with
  | nil => exact List.nil_subset vs
  | cons item items ih =>
    have hitem : (item.toScalar columns decode).Meets Fault.Excluded (·.referenced ⊆ vs) := by
      cases item with
      | text t => exact List.nil_subset vs
      | slot s =>
        exact (hcolumns.get (h s List.mem_cons_self)).map fun v hv =>
          List.cons_subset.mpr ⟨hv, List.nil_subset vs⟩
    refine hitem.bind fun x hx => (ih fun s hs => h s (List.mem_cons_of_mem _ hs)).bind ?_
    exact fun xs hxs => List.append_subset.mpr ⟨hx, hxs⟩

namespace Pattern

theorem toScalar_meets (hcolumns : columns.Within vs) (decode : Bool) (hp : columns.Covers p) :
    (p.toScalar columns decode).Meets Fault.Excluded (·.referenced ⊆ vs) :=
  (PatternItem.toScalars_meets hcolumns decode fun s hs => hp s (slot_mem_items hs)).map
    fun _ h => Scalar.referenced_join h

theorem slotEquals_meets (hcolumns : columns.Within vs) {s : Slot}
    (hs : (columns.lookup (s.row, s.column)).isSome) (text : String) :
    (slotEquals columns s text).Meets Fault.Excluded (·.referenced ⊆ vs) := by
  unfold slotEquals
  split
  · exact (hcolumns.get hs).map fun v hv => List.cons_subset.mpr ⟨hv, List.nil_subset vs⟩
  · exact List.nil_subset vs

theorem residualCondition_meets (hcolumns : columns.Within vs) (hp : columns.Covers p)
    (hq : columns.Covers q) :
    (residualCondition columns p q).Meets Fault.Excluded (·.referenced ⊆ vs) := by
  have hslot : ∀ {p : Pattern} {s : Slot}, columns.Covers p → p.items = [.slot s] →
      (columns.lookup (s.row, s.column)).isSome :=
    fun hp h => hp _ (slot_mem_items (h ▸ List.mem_cons_self))
  unfold residualCondition
  split
  · rename_i a b ha hb
    refine (hcolumns.get (hslot hp ha)).bind fun v hv =>
      (hcolumns.get (hslot hq hb)).bind fun w hw => ?_
    exact List.cons_subset.mpr ⟨hv, List.cons_subset.mpr ⟨hw, List.nil_subset vs⟩⟩
  · rename_i hs _ _
    exact slotEquals_meets hcolumns (hslot hp hs) _
  · rename_i hs _ _
    exact slotEquals_meets hcolumns (hslot hq hs) _
  · exact (toScalar_meets hcolumns _ hp).bind fun _ hx => (toScalar_meets hcolumns _ hq).bind
      fun _ hy => Condition.referenced_equal hx hy

theorem residualConditions_meets (hcolumns : columns.Within vs)
    {pairs : List (Pattern × Pattern)}
    (h : ∀ pair ∈ pairs, columns.Covers pair.1 ∧ columns.Covers pair.2) :
    (residualConditions columns pairs).Meets Fault.Excluded
      fun cs => Condition.referencedAll cs ⊆ vs := by
  induction pairs with
  | nil => exact List.nil_subset vs
  | cons pair pairs ih =>
    rw [List.forall_mem_cons] at h
    exact (residualCondition_meets hcolumns h.1.1 h.1.2).bind fun _ hc => (ih h.2).bind
      fun _ hcs => List.append_subset.mpr ⟨hc, hcs⟩

theorem equality_meets (hcolumns : columns.Within vs) (hp : columns.Covers p)
    (hq : columns.Covers q) :
    (p.equality columns q).Meets Fault.Excluded (·.referenced ⊆ vs) := by
  unfold equality compare
  cases hpairs : reduce p.escaped q.escaped p.symbols q.symbols with
  | none => exact List.nil_subset vs
  | some pairs =>
    refine (residualConditions_meets hcolumns fun pair hpair => ?_).map
      fun _ h => Condition.referenced_all h
    obtain ⟨hl, hr⟩ := subset_of_reduce hpairs hpair
    exact ⟨hp.of_subset hl, hq.of_subset hr⟩

end Pattern

theorem BoundTerm.equality_meets (hcolumns : columns.Within vs) {a b : BoundTerm}
    (ha : columns.Covers a.pattern) (hb : columns.Covers b.pattern) :
    (a.equality columns b).Meets Fault.Excluded (·.referenced ⊆ vs) := by
  unfold equality
  split
  · exact Pattern.equality_meets hcolumns ha hb
  · exact List.nil_subset vs

theorem BoundTerm.covers_ofTerm? {t : Term} {b : BoundTerm} (h : BoundTerm.ofTerm? t = some b) :
    columns.Covers b.pattern := by
  cases t with
  | var name => cases h
  | iri i =>
    cases h
    exact covers_ofText i true
  | literal l =>
    cases h
    exact covers_ofText l.value false

namespace Binding

/-- What a binding reads is there: the columns of its pattern, or its variable and those that its
shape depends on. -/
def InScope (columns : ColumnIndex) (vs : List Variable) : Binding → Prop
  | term t => columns.Covers t.pattern
  | value v shape _ _ => v ∈ vs ∧ shape.indices ⊆ vs

variable {l r : Binding}

theorem InScope.indices {b : Binding} (h : b.InScope columns vs) : b.shape.indices ⊆ vs := by
  cases b with
  | term t => exact List.nil_subset vs
  | value v shape nullable escaped => exact h.2

theorem toScalar_meets (hcolumns : columns.Within vs) {b : Binding} (h : b.InScope columns vs) :
    (b.toScalar columns).Meets Fault.Excluded (·.referenced ⊆ vs) := by
  cases b with
  | term t => exact Pattern.toScalar_meets hcolumns false h
  | value v shape nullable escaped => exact List.cons_subset.mpr ⟨h.1, List.nil_subset vs⟩

theorem termEquality_meets (hcolumns : columns.Within vs) (hl : l.InScope columns vs)
    (hr : r.InScope columns vs) :
    (termEquality columns l r).Meets Fault.Excluded (·.referenced ⊆ vs) := by
  unfold termEquality
  split
  · exact List.nil_subset vs
  · split
    · exact BoundTerm.equality_meets hcolumns hl hr
    · exact (toScalar_meets hcolumns hl).bind fun _ hx => (toScalar_meets hcolumns hr).bind
        fun _ hy => Condition.referenced_equal hx hy

theorem InScope.nullVariable {b : Binding} {v : Variable} (h : b.InScope columns vs)
    (hv : b.nullVariable? = some v) : v ∈ vs := by
  cases b with
  | term t => cases hv
  | value w shape nullable escaped =>
    cases nullable with
    | false => cases hv
    | true =>
      cases hv
      exact h.1

theorem equality_meets (hcolumns : columns.Within vs) (hl : l.InScope columns vs)
    (hr : r.InScope columns vs) :
    (l.equality columns r).Meets Fault.Excluded (·.referenced ⊆ vs) := by
  refine (termEquality_meets hcolumns hl hr).bind fun c hc => ?_
  have hnull : ∀ v ∈ [l, r].filterMap nullVariable?, v ∈ vs := by
    intro v hv
    obtain ⟨b, hb, hbv⟩ := List.mem_filterMap.mp hv
    simp only [List.mem_cons, List.not_mem_nil, or_false] at hb
    obtain rfl | rfl := hb
    · exact hl.nullVariable hbv
    · exact hr.nullVariable hbv
  split
  · exact hc
  · refine Condition.referencedAll_subset.mpr fun d hd => ?_
    obtain hd | hd := List.mem_append.mp hd
    · obtain ⟨v, hv, rfl⟩ := List.mem_map.mp hd
      exact List.cons_subset.mpr ⟨hnull v hv, List.nil_subset vs⟩
    · exact List.mem_singleton.mp hd ▸ hc

end Binding

end Equality

namespace Shape

mutual

/-- The language of a term is read off the variables that its shape depends on. -/
theorem referenced_language? : ∀ (s : Shape) {x : Scalar}, s.language? = some x →
    x.referenced ⊆ s.indices
  | known _, _, h => by
    cases h
    exact List.nil_subset _
  | byBranch index branches, x, h => by
    rw [language?, Option.map_eq_some_iff] at h
    obtain ⟨cases, hcases, rfl⟩ := h
    rw [Scalar.referenced, Scalar.referenced, List.append_nil]
    exact referenced_languages? index 0 branches hcases
  | unknown, _, h => by cases h

theorem referenced_languages? (index : Variable) : ∀ (n : Nat) (branches : List (Option Shape))
    {cases : List (Condition × Scalar)}, languages? index n branches = some cases →
    Scalar.referencedBranches cases ⊆ index :: indicesAll branches
  | _, [], _, h => by
    cases h
    exact List.nil_subset _
  | n, s :: rest, cases, h => by
    have hskip : index :: indicesAll rest ⊆ index :: indicesAll (s :: rest) :=
      List.cons_subset_cons _ (List.subset_append_right _ _)
    rw [languages?] at h
    split at h
    · exact List.Subset.trans (referenced_languages? index (n + 1) rest h) hskip
    · rename_i x cases hx hcases
      cases h
      have hrest := List.Subset.trans (referenced_languages? index (n + 1) rest hcases) hskip
      have hx := referenced_languageOption? s hx
      have hx : x.referenced ⊆ index :: indicesAll (s :: rest) := fun v hv =>
        List.mem_cons_of_mem _ (List.mem_append_left _ (hx hv))
      refine List.append_subset.mpr ⟨?_, List.append_subset.mpr ⟨hx, hrest⟩⟩
      exact List.cons_subset.mpr ⟨List.mem_cons_self, List.nil_subset _⟩
    · cases h

theorem referenced_languageOption? : ∀ (s : Option Shape) {x : Scalar},
    languageOption? s = some (some x) → x.referenced ⊆ indicesOption s
  | none, _, h => by cases h
  | some s, x, h => by
    rw [languageOption?, Option.map_eq_some_iff] at h
    obtain ⟨y, hy, heq⟩ := h
    cases heq
    exact referenced_language? s hy

end

theorem indices_merge {s t : Shape} {vs : List Variable} (hs : s.indices ⊆ vs) :
    (s.merge t).indices ⊆ vs := by
  unfold merge
  split
  · exact hs
  · exact List.nil_subset vs

end Shape

/-- Everything that an expression can see is over given variables. -/
structure ExpressionScope.InScope (s : ExpressionScope) (vs : List Variable) : Prop where
  columns : s.columns.Within vs
  bindings : ∀ e ∈ s.bindings, e.2.InScope s.columns vs

/-- A computed value over given variables. -/
structure Computed.Over (vs : List Variable) (v : Computed) : Prop where
  reads : v.scalar.referenced ⊆ vs
  indices : v.shape.indices ⊆ vs

section Expressions

variable {s : ExpressionScope} {vs : List Variable}

theorem ExpressionScope.InScope.binding (h : s.InScope vs) {name : String} {b : Binding}
    (hb : s.binding? name = some b) : b.InScope s.columns vs :=
  h.bindings (name, b) (mem_of_lookup hb)

theorem ExpressionScope.InScope.variableValue (h : s.InScope vs) (name : String) :
    (s.variableValue name).Meets Fault.Excluded (·.Over vs) := by
  unfold ExpressionScope.variableValue
  cases hb : s.binding? name with
  | none => exact ⟨List.nil_subset vs, List.nil_subset vs⟩
  | some b =>
    have hb := h.binding hb
    exact (Binding.toScalar_meets h.columns hb).bind fun x hx => ⟨hx, hb.indices⟩

namespace Expression

theorem firstValue_over {values : List Computed} (h : ∀ v ∈ values, v.Over vs) :
    (firstValue values).Over vs := by
  constructor
  · refine Scalar.referencedAll_subset.mpr fun x hx => ?_
    obtain ⟨v, hv, rfl⟩ := List.mem_map.mp hx
    exact (h v hv).reads
  · cases values with
    | nil => exact List.nil_subset vs
    | cons v rest =>
      have hv := (h v List.mem_cons_self).indices
      show (rest.foldl (fun s w => s.merge w.shape) v.shape).indices ⊆ vs
      clear h
      generalize v.shape = shape at hv ⊢
      induction rest generalizing shape with
      | nil => exact hv
      | cons w rest ih => exact ih _ (Shape.indices_merge hv)

mutual

theorem value_meets (hs : s.InScope vs) : ∀ e : Expression,
    (e.value s).Meets Fault.IsUnsupported (·.Over vs)
  | var name => (hs.variableValue name).of_excluded
  | constant (.var name) => (hs.variableValue name).of_excluded
  | constant (.iri _) => ⟨List.nil_subset vs, List.nil_subset vs⟩
  | constant (.literal _) => ⟨List.nil_subset vs, List.nil_subset vs⟩
  | str inner => (value_meets hs inner).bind fun _ h => ⟨h.reads, List.nil_subset vs⟩
  | lang inner => (value_meets hs inner).bind fun v h => by
    cases hx : v.shape.language? with
    | none => trivial
    | some x =>
      exact ⟨List.Subset.trans (v.shape.referenced_language? hx) h.indices, List.nil_subset vs⟩
  | concat items => (valueEach_meets hs items).bind fun _ h =>
    ⟨(firstValue_over h).reads, List.nil_subset vs⟩
  | coalesce items => (valueEach_meets hs items).bind fun _ h => firstValue_over h
  | and _ => trivial
  | or _ => trivial
  | not _ => trivial
  | bound _ => trivial
  | compare _ _ _ => trivial
  | langMatches _ _ => trivial
  | strStarts _ _ => trivial
  | strEnds _ _ => trivial
  | contains _ _ => trivial

theorem valueEach_meets (hs : s.InScope vs) : ∀ es : List Expression,
    (valueEach s es).Meets Fault.IsUnsupported fun values => ∀ v ∈ values, v.Over vs
  | [] => fun _ h => absurd h List.not_mem_nil
  | e :: rest =>
    (value_meets hs e).bind fun _ hv => (valueEach_meets hs rest).bind fun _ hrest =>
      List.forall_mem_cons.mpr ⟨hv, hrest⟩

end

theorem term?_covers (hs : s.InScope vs) {e : Expression} {t : BoundTerm}
    (h : e.term? s = some t) : s.columns.Covers t.pattern := by
  unfold term? at h
  split at h
  · split at h
    · rename_i hb
      cases h
      exact hs.binding hb
    · cases h
  · exact BoundTerm.covers_ofTerm? h
  · cases h

theorem operand_meets (hs : s.InScope vs) (e other : Expression) :
    (operand s e other).Meets Fault.IsUnsupported (·.Over vs) := by
  refine (value_meets hs e).bind fun v h => ?_
  split
  · split
    · exact ⟨List.nil_subset vs, h.indices⟩
    · exact h
  · exact h

theorem compareValues_meets (hs : s.InScope vs) (op : Comparator) (l r : Expression) :
    (compareValues s op l r).Meets Fault.IsUnsupported (·.referenced ⊆ vs) := by
  refine (operand_meets hs l r).bind fun x hx => (operand_meets hs r l).bind fun y hy => ?_
  split
  · exact List.nil_subset vs
  · exact List.append_subset.mpr ⟨hx.reads, hy.reads⟩

theorem comparison_meets (hs : s.InScope vs) (op : Comparator) (l r : Expression) :
    (comparison s op l r).Meets Fault.IsUnsupported (·.referenced ⊆ vs) := by
  unfold comparison
  split
  · rename_i ha hb
    split
    · exact (BoundTerm.equality_meets hs.columns (term?_covers hs ha)
        (term?_covers hs hb)).of_excluded
    · exact compareValues_meets hs _ l r
  · rename_i ha hb
    split
    · exact ((BoundTerm.equality_meets hs.columns (term?_covers hs ha)
        (term?_covers hs hb)).map fun _ h => h).of_excluded
    · exact compareValues_meets hs _ l r
  · exact compareValues_meets hs _ l r

theorem likeCondition_meets (hs : s.InScope vs) (whole value part : Expression)
    (pattern : String → String) :
    (likeCondition s whole value part pattern).Meets Fault.IsUnsupported (·.referenced ⊆ vs) := by
  unfold likeCondition
  split
  · exact (value_meets hs value).bind fun _ h => h.reads
  · trivial

mutual

/-- An expression over bindings in scope is a condition in scope, or has no such form. -/
theorem condition_meets (hs : s.InScope vs) : ∀ e : Expression,
    (e.condition s).Meets Fault.IsUnsupported (·.referenced ⊆ vs)
  | constant (.literal l) => by
    rw [condition]
    split
    · exact List.nil_subset vs
    · exact List.nil_subset vs
    · trivial
  | constant (.var _) => trivial
  | constant (.iri _) => trivial
  | var _ => trivial
  | and items => (conditionEach_meets hs items).bind fun _ h => h
  | or items => (conditionEach_meets hs items).bind fun _ h => h
  | not inner => (condition_meets hs inner).bind fun _ h => h
  | bound name => by
    rw [condition]
    split
    · exact List.nil_subset vs
    · exact List.nil_subset vs
    · rename_i v hv
      obtain ⟨b, hb, hv⟩ := Option.map_eq_some_iff.mp hv
      exact List.cons_subset.mpr ⟨(hs.binding hb).nullVariable hv, List.nil_subset vs⟩
  | compare op l r => comparison_meets hs op l r
  | langMatches language range => by
    rw [condition]
    split
    · exact (value_meets hs language).bind fun _ h => h.reads
    · trivial
  | strStarts v part => likeCondition_meets hs _ v part _
  | strEnds v part => likeCondition_meets hs _ v part _
  | contains v part => likeCondition_meets hs _ v part _
  | lang _ => trivial
  | str _ => trivial
  | concat _ => trivial
  | coalesce _ => trivial

theorem conditionEach_meets (hs : s.InScope vs) : ∀ es : List Expression,
    (conditionEach s es).Meets Fault.IsUnsupported fun cs => Condition.referencedAll cs ⊆ vs
  | [] => List.nil_subset vs
  | e :: rest =>
    (condition_meets hs e).bind fun _ hc => (conditionEach_meets hs rest).bind fun _ hcs =>
      List.append_subset.mpr ⟨hc, hcs⟩

end

end Expression

end Expressions

end VirtualGraph
