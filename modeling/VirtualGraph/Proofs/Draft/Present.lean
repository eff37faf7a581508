import VirtualGraph.Draft.Build
import VirtualGraph.Proofs.Block.Order
import VirtualGraph.Proofs.Draft.Reads

/-!
# Values that are never null

A binding says whether its value may be null. On a row where every column of the block has a value,
and every binding that is said not to be null has one, the same is true of all that is computed from
them: the text of a pattern, the value of an expression, and the language of a term. So a test
whether a query variable is bound, which is decided from what its binding says, is true where the
variable has a value.

The shape of a term may depend on the branch of a union that the row comes from. It then says on the
row which shape the term has, and its language can be told where the branches are told apart.
-/

namespace VirtualGraph

variable {α : Type} {D : ValueDomain α} {row row' : Row α}

/-- The numbers of the branches of a union are told apart. -/
def ValueDomain.TellsNumbers (D : ValueDomain α) : Prop :=
  ∀ n k : Nat, (D.order (D.constant (toString n) .integer)
    (D.constant (toString k) .integer)).isEq = true ↔ n = k

/-! ### Scalars -/

namespace Scalar

theorem evalAll_ne_none {xs : List Scalar} (h : ∀ x ∈ xs, x.eval D row ≠ none) :
    evalAll D row xs ≠ none := by
  induction xs with
  | nil => exact Option.some_ne_none _
  | cons x xs ih =>
    rw [List.forall_mem_cons] at h
    obtain ⟨a, ha⟩ := Option.ne_none_iff_exists'.mp h.1
    obtain ⟨as, has⟩ := Option.ne_none_iff_exists'.mp (ih h.2)
    rw [evalAll, ha, has]
    exact Option.some_ne_none _

theorem eval_concat_ne_none {xs : List Scalar} (h : ∀ x ∈ xs, x.eval D row ≠ none) :
    (concat xs).eval D row ≠ none := by
  rw [eval, ne_eq, Option.map_eq_none_iff]
  exact evalAll_ne_none h

theorem eval_coalesce_ne_none {xs : List Scalar} (h : ∃ x ∈ xs, x.eval D row ≠ none) :
    (coalesce xs).eval D row ≠ none := by
  rw [eval]
  induction xs with
  | nil =>
    obtain ⟨x, hx, -⟩ := h
    exact absurd hx List.not_mem_nil
  | cons x xs ih =>
    rw [evalFirst, ne_eq, Option.or_eq_none_iff, not_and_or]
    obtain ⟨y, hy, hvalue⟩ := h
    obtain rfl | hy := List.mem_cons.mp hy
    · exact .inl hvalue
    · exact .inr (ih ⟨y, hy, hvalue⟩)

theorem eval_join_ne_none {xs : List Scalar} (h : ∀ x ∈ xs, x.eval D row ≠ none) :
    (join xs).eval D row ≠ none := by
  match xs with
  | [] => exact Option.some_ne_none _
  | [x] => exact h x List.mem_cons_self
  | x :: y :: xs => exact eval_concat_ne_none h

end Scalar

/-! ### Patterns -/

/-- Every column of an index has a value on a row. -/
def ColumnIndex.Filled (row : Row α) (columns : ColumnIndex) : Prop :=
  ∀ e ∈ columns, row e.2 ≠ none

section Filled

variable {columns : ColumnIndex}

theorem ColumnIndex.Filled.get (h : columns.Filled row) (n : Nat) (name : String) :
    (columns.get n name).Meets Fault.Any fun v => row v ≠ none := by
  unfold ColumnIndex.get
  split
  · rename_i v hv
    exact h _ (mem_of_lookup hv)
  · trivial

theorem PatternItem.toScalars_filled (h : columns.Filled row) (decode : Bool)
    (items : List PatternItem) : (toScalars columns decode items).Meets Fault.Any
      fun xs => ∀ x ∈ xs, x.eval D row ≠ none := by
  induction items with
  | nil => exact fun _ hx => absurd hx List.not_mem_nil
  | cons item items ih =>
    have hitem : (item.toScalar columns decode).Meets Fault.Any fun x => x.eval D row ≠ none := by
      cases item with
      | text t => exact Option.some_ne_none _
      | slot s => exact (h.get s.row s.column).map fun _ hv => hv
    exact hitem.bind fun _ hx => ih.bind fun _ hxs => List.forall_mem_cons.mpr ⟨hx, hxs⟩

theorem Pattern.toScalar_filled (h : columns.Filled row) (decode : Bool) (p : Pattern) :
    (p.toScalar columns decode).Meets Fault.Any fun x => x.eval D row ≠ none :=
  (PatternItem.toScalars_filled h decode p.items).map fun _ hxs => Scalar.eval_join_ne_none hxs

end Filled

/-! ### Shapes -/

namespace Shape

/-- The language of a term of a given shape, if the shape has one, is told by a row. -/
def Told (D : ValueDomain α) (row : Row α) (s : Shape) : Prop :=
  ∀ x, s.language? = some x → x.eval D row ≠ none

theorem told_known (D : ValueDomain α) (row : Row α) (s : TermShape) : (known s).Told D row := by
  rintro _ ⟨⟩
  exact Option.some_ne_none _

theorem told_unknown (D : ValueDomain α) (row : Row α) : unknown.Told D row := by
  rintro _ ⟨⟩

/-- Whether the language is told depends on the variables that hold branches. -/
theorem Told.congr {s : Shape} (h : s.Told D row) (hrow : ∀ v ∈ s.indices, row' v = row v) :
    s.Told D row' := by
  intro x hx
  rw [Scalar.eval_congr x fun v hv => hrow v (s.referenced_language? hx hv)]
  exact h x hx

theorem merge_cases (s t : Shape) : s.merge t = unknown ∨ s.merge t = s ∧ t = s := by
  unfold merge
  split
  · rename_i h
    exact .inr ⟨rfl, h.symm⟩
  · exact .inl rfl

/-- Shapes have a common one only if they are all the same. -/
theorem foldl_merge_cases (s : Shape) (ts : List Shape) :
    ts.foldl merge s = unknown ∨ ∀ t ∈ s :: ts, t = ts.foldl merge s := by
  induction ts generalizing s with
  | nil => exact .inr fun t ht => List.mem_singleton.mp ht
  | cons t ts ih =>
    rw [List.foldl_cons]
    obtain h | h := ih (s.merge t)
    · exact .inl h
    · obtain ⟨hfirst, hrest⟩ := List.forall_mem_cons.mp h
      obtain hmerge | ⟨hmerge, rfl⟩ := merge_cases s t
      · exact .inl (hfirst.symm.trans hmerge)
      · rw [hmerge] at hfirst hrest ⊢
        exact .inr (List.forall_mem_cons.mpr ⟨hfirst, List.forall_mem_cons.mpr ⟨hfirst, hrest⟩⟩)

/-! ### Branches -/

variable {index : Variable} {n : Nat}

/-- A row of one branch is not of another one. -/
theorem eval_isBranch (hD : D.TellsNumbers)
    (hindex : row index = some (D.constant (toString n) .integer)) (k : Nat) :
    (isBranch index k).eval D row = .yes ↔ n = k := by
  simp only [isBranch, Condition.eval, Scalar.eval, hindex, Comparator.holds, Truth.ofBool_eq_yes]
  exact hD n k

/-- On a row of a branch that binds the variable, the cases of the language come to the language in
this branch. -/
theorem evalBranch_languages? (hD : D.TellsNumbers)
    (hindex : row index = some (D.constant (toString n) .integer)) {s : Shape} :
    ∀ (first k : Nat) (branches : List (Option Shape)) {cases : List (Condition × Scalar)},
      languages? index first branches = some cases → branches[k]? = some (some s) → n = first + k →
      ∃ x, s.language? = some x ∧ Scalar.evalBranch D row cases = some (x.eval D row)
  | _, _, [], _, _, hs, _ => by cases hs
  | first, k, branch :: rest, cases, h, hs, hn => by
    rw [languages?] at h
    cases k with
    | zero =>
      obtain rfl : branch = some s := Option.some_inj.mp hs
      obtain rfl : n = first := hn
      rw [languageOption?] at h
      cases hlanguage : s.language? with
      | none => simp [hlanguage] at h
      | some x =>
        cases hrest : languages? index (n + 1) rest with
        | none => simp [hlanguage, hrest] at h
        | some others =>
          simp only [hlanguage, hrest, Option.map_some, Option.some.injEq] at h
          subst h
          refine ⟨x, rfl, ?_⟩
          rw [Scalar.evalBranch, if_pos ((eval_isBranch hD hindex n).mpr rfl)]
    | succ k =>
      have hn : n = first + 1 + k := by omega
      have hother : ¬(isBranch index first).eval D row = .yes := by
        rw [eval_isBranch hD hindex]
        omega
      -- a branch that does not bind the variable has no case
      split at h
      · exact evalBranch_languages? hD hindex (first + 1) k rest h hs hn
      · rename_i x others _ hrest
        obtain rfl := Option.some_inj.mp h
        obtain ⟨y, hy, heval⟩ :=
          evalBranch_languages? hD hindex (first + 1) k rest hrest hs hn
        refine ⟨y, hy, ?_⟩
        rw [Scalar.evalBranch, if_neg hother, heval]
      · cases h

/-- The language is told on a row of a branch that tells it. -/
theorem told_byBranch (hD : D.TellsNumbers)
    (hindex : row index = some (D.constant (toString n) .integer)) {branches : List (Option Shape)}
    {s : Shape} (hs : branches[n]? = some (some s)) (htold : s.Told D row) :
    (byBranch index branches).Told D row := by
  intro x hx
  rw [language?, Option.map_eq_some_iff] at hx
  obtain ⟨cases, hcases, rfl⟩ := hx
  obtain ⟨y, hy, heval⟩ :=
    evalBranch_languages? hD hindex 0 n branches hcases hs (Nat.zero_add n).symm
  rw [Scalar.eval, heval]
  exact htold y hy

end Shape

/-! ### What a shape says on a row -/

/-- The shape of the term of a row, as far as the shape of a binding tells it. It is absent on rows
of branches that do not bind the query variable, and on rows of no branch. -/
inductive Shape.Says (D : ValueDomain α) (row : Row α) : Shape → Option TermShape → Prop where
  | known (k : TermShape) : Says D row (known k) (some k)
  | branch {index : Variable} {branches : List (Option Shape)} {n : Nat} {s : Shape}
      {k : Option TermShape} (hindex : row index = some (D.constant (toString n) .integer))
      (hs : branches[n]? = some (some s)) (h : Says D row s k) :
      Says D row (byBranch index branches) k
  | absent {index : Variable} {branches : List (Option Shape)} {n : Nat}
      (hindex : row index = some (D.constant (toString n) .integer))
      (hs : ∀ s, branches[n]? ≠ some (some s)) : Says D row (byBranch index branches) none
  | null {index : Variable} {branches : List (Option Shape)} (hindex : row index = none) :
      Says D row (byBranch index branches) none
  | unknown (k : Option TermShape) : Says D row unknown k

/-- The text of a language, empty if there is none. -/
def TermShape.tag (k : TermShape) : String := k.language.getD ""

namespace Shape

variable {s t : Shape} {k : Option TermShape} {x : Scalar}

theorem Says.shape_eq {k k' : TermShape} (h : (Shape.known k).Says D row (some k')) :
    k' = k := by
  cases h
  rfl

/-- If the row is of no branch that binds the variable, the language is none of the cases. -/
theorem evalBranch_languages?_eq_none {index : Variable} :
    ∀ (first : Nat) (branches : List (Option Shape)) {cases : List (Condition × Scalar)},
      languages? index first branches = some cases →
      (∀ n s, branches[n]? = some (some s) → (isBranch index (first + n)).eval D row ≠ .yes) →
      Scalar.evalBranch D row cases = none
  | _, [], _, h, _ => by
    obtain rfl := Option.some_inj.mp h
    rfl
  | first, branch :: rest, cases, h, hother => by
    have hrest : ∀ n s, rest[n]? = some (some s) →
        (isBranch index (first + 1 + n)).eval D row ≠ .yes := by
      intro n s hs
      have hn : first + 1 + n = first + (n + 1) := by omega
      rw [hn]
      exact hother (n + 1) s hs
    rw [languages?] at h
    split at h
    · exact evalBranch_languages?_eq_none (first + 1) rest h hrest
    · rename_i y others hlanguage hothers
      obtain rfl := Option.some_inj.mp h
      cases branch with
      | none => cases hlanguage
      | some s =>
        have hfirst : (isBranch index first).eval D row ≠ .yes := hother 0 s rfl
        rw [Scalar.evalBranch, if_neg hfirst]
        exact evalBranch_languages?_eq_none (first + 1) rest hothers hrest
    · cases h

/-- The language of a shape is that of the term that the shape says, and null if it says none. -/
theorem Says.eval_language (hD : D.TellsNumbers) (h : s.Says D row k) (hx : s.language? = some x) :
    x.eval D row = k.map fun k => D.constant k.tag .string := by
  induction h generalizing x with
  | known k =>
    cases hx
    rfl
  | branch hindex hs _ ih =>
    obtain ⟨cases, hcases, rfl⟩ := Option.map_eq_some_iff.mp hx
    obtain ⟨y, hy, heval⟩ :=
      evalBranch_languages? hD hindex 0 _ _ hcases hs (Nat.zero_add _).symm
    rw [Scalar.eval, heval]
    exact ih hy
  | absent hindex hs =>
    obtain ⟨cases, hcases, rfl⟩ := Option.map_eq_some_iff.mp hx
    rw [Scalar.eval, evalBranch_languages?_eq_none 0 _ hcases fun n s hns => ?_]
    · rfl
    · rw [Ne, eval_isBranch hD hindex, Nat.zero_add]
      rintro rfl
      exact hs s hns
  | null hindex =>
    obtain ⟨cases, hcases, rfl⟩ := Option.map_eq_some_iff.mp hx
    rw [Scalar.eval, evalBranch_languages?_eq_none 0 _ hcases fun n s _ => ?_]
    · rfl
    · simp [isBranch, Condition.eval, Scalar.eval, hindex]
  | unknown k => cases hx

theorem indices_subset_indicesAll {branches : List (Option Shape)} {n : Nat}
    (h : branches[n]? = some (some s)) : s.indices ⊆ indicesAll branches := by
  induction branches generalizing n with
  | nil => cases h
  | cons b branches ih =>
    cases n with
    | zero =>
      obtain rfl : b = some s := Option.some_inj.mp h
      exact List.subset_append_left _ _
    | succ n => exact List.Subset.trans (ih h) (List.subset_append_right _ _)

/-- What a shape says depends on the variables that hold branches. -/
theorem Says.congr (h : s.Says D row k) (hrow : ∀ v ∈ s.indices, row' v = row v) :
    s.Says D row' k := by
  induction h with
  | known k => exact .known k
  | branch hindex hs _ ih =>
    refine .branch ((hrow _ List.mem_cons_self).trans hindex) hs (ih fun v hv => hrow v ?_)
    exact List.mem_cons_of_mem _ (indices_subset_indicesAll hs hv)
  | absent hindex hs => exact .absent ((hrow _ List.mem_cons_self).trans hindex) hs
  | null hindex => exact .null ((hrow _ List.mem_cons_self).trans hindex)
  | unknown k => exact .unknown k

/-- A row without branches says something all the same. -/
theorem exists_says_of_null (hrow : ∀ v ∈ s.indices, row v = none) : ∃ k, s.Says D row k := by
  cases s with
  | known k => exact ⟨_, .known k⟩
  | byBranch index branches => exact ⟨_, .null (hrow index List.mem_cons_self)⟩
  | unknown => exact ⟨none, .unknown none⟩

theorem Says.merge_left (h : s.Says D row k) : (s.merge t).Says D row k := by
  obtain hunknown | ⟨hmerge, -⟩ := merge_cases s t
  · rw [hunknown]
    exact .unknown k
  · rwa [hmerge]

theorem Says.merge_right (h : t.Says D row k) : (s.merge t).Says D row k := by
  obtain hunknown | ⟨hmerge, rfl⟩ := merge_cases s t
  · rw [hunknown]
    exact .unknown k
  · rwa [hmerge]

end Shape

namespace UnionDraft

variable {index : Variable}

theorem shape_cases (index : Variable) (shapes : List (Option Shape)) :
    shape index shapes = .byBranch index shapes ∨
      ∃ k, shape index shapes = .known k ∧ ∀ s, some s ∈ shapes → s = .known k := by
  unfold shape
  split
  · rename_i k rest hbound
    split
    · rename_i hall
      refine .inr ⟨k, rfl, fun s hs => ?_⟩
      have hmem : s ∈ shapes.filterMap id := List.mem_filterMap.mpr ⟨some s, hs, rfl⟩
      rw [hbound] at hmem
      obtain rfl | hmem := List.mem_cons.mp hmem
      · rfl
      · simpa using List.all_eq_true.mp hall s hmem
    · exact .inl rfl
  · exact .inl rfl

/-- The shape of several branches says what that of the row's branch says. -/
theorem says_shape {n : Nat} {shapes : List (Option Shape)} {s : Shape}
    {said : Option TermShape} (hindex : row index = some (D.constant (toString n) .integer))
    (hs : shapes[n]? = some (some s)) (h : s.Says D row said) :
    (shape index shapes).Says D row said := by
  obtain hbranches | ⟨k, hknown, hall⟩ := shape_cases index shapes
  · rw [hbranches]
    exact .branch hindex hs h
  · rw [hknown, ← hall s (List.mem_of_getElem? hs)]
    exact h

theorem exists_says_shape {n : Nat} {shapes : List (Option Shape)}
    (hindex : row index = some (D.constant (toString n) .integer))
    (hs : shapes[n]? = some none) : ∃ said, (shape index shapes).Says D row said := by
  obtain hbranches | ⟨k, hknown, -⟩ := shape_cases index shapes
  · rw [hbranches]
    exact ⟨none, .absent hindex fun s hsome => by simp [hs] at hsome⟩
  · rw [hknown]
    exact ⟨some k, .known k⟩

end UnionDraft

/-! ### Bindings and expressions -/

/-- A value that is said not to be null has a value on a row, and its language is told there. -/
def Computed.Present (D : ValueDomain α) (row : Row α) (v : Computed) : Prop :=
  v.nullable = false → v.scalar.eval D row ≠ none ∧ v.shape.Told D row

namespace Binding

/-- A binding that is said not to be null has a value on a row, and its language is told there. The
text of a pattern is null only where a column is. -/
def Present (D : ValueDomain α) (row : Row α) : Binding → Prop
  | term _ => True
  | value v shape nullable _ => nullable = false → row v ≠ none ∧ shape.Told D row

variable {columns : ColumnIndex} {b : Binding}

/-- Whether a binding is present depends on the variables that it reads. -/
theorem Present.congr {vs : List Variable} (h : b.Present D row) (hb : b.InScope columns vs)
    (hrow : ∀ v ∈ vs, row' v = row v) : b.Present D row' := by
  cases b with
  | term t => trivial
  | value v shape nullable escaped =>
    intro hnullable
    obtain ⟨hvalue, htold⟩ := h hnullable
    exact ⟨hrow v hb.1 ▸ hvalue, htold.congr fun w hw => hrow w (hb.2 hw)⟩

theorem Present.told (h : b.Present D row) (hnullable : b.nullable = false) :
    b.shape.Told D row := by
  cases b with
  | term t => exact Shape.told_known D row t.shape
  | value v shape nullable escaped => exact (h hnullable).2

theorem Present.toScalar (h : b.Present D row) (hcolumns : columns.Filled row) :
    (b.toScalar columns).Meets Fault.Any fun x => b.nullable = false → x.eval D row ≠ none := by
  cases b with
  | term t => exact (Pattern.toScalar_filled hcolumns false t.pattern).mono fun _ hx _ => hx
  | value v shape nullable escaped => exact fun hnullable => (h hnullable).1

theorem nullable_of_nullVariable? (b : Binding) (h : b.nullVariable? = none) :
    b.nullable = false := by
  cases b with
  | term t => rfl
  | value v shape nullable escaped =>
    cases nullable with
    | false => rfl
    | true => cases h

theorem toScalar_of_nullVariable? (b : Binding) {v : Variable} (h : b.nullVariable? = some v) :
    b.toScalar columns = .ok (.column v) := by
  cases b with
  | term t => cases h
  | value w shape nullable escaped =>
    cases nullable with
    | false => cases h
    | true =>
      cases h
      rfl

end Binding

/-- On a row, every column that an expression can see has a value, and so has every binding that is
said not to be null. -/
structure ExpressionScope.Present (D : ValueDomain α) (row : Row α) (s : ExpressionScope) :
    Prop where
  columns : s.columns.Filled row
  bindings : ∀ e ∈ s.bindings, e.2.Present D row

section Expressions

variable {s : ExpressionScope}

theorem ExpressionScope.Present.variableValue (h : s.Present D row) (name : String) :
    (s.variableValue name).Meets Fault.Any (·.Present D row) := by
  unfold ExpressionScope.variableValue
  cases hb : s.binding? name with
  | none => exact fun hnullable => by cases hnullable
  | some b =>
    have hb := h.bindings (name, b) (mem_of_lookup hb)
    exact (hb.toScalar h.columns).bind fun x hx hnullable => ⟨hx hnullable, hb.told hnullable⟩

namespace Expression

theorem plainText_present {x : Scalar} {nullable : Bool}
    (h : nullable = false → x.eval D row ≠ none) : (plainText x nullable).Present D row :=
  fun hnullable => ⟨h hnullable, Shape.told_known D row _⟩

/-- The shape of the first value is what is known of all values, if it is known at all. -/
theorem firstValue_shape {values : List Computed} {v : Computed} (hv : v ∈ values) :
    (firstValue values).shape = .unknown ∨ (firstValue values).shape = v.shape := by
  cases values with
  | nil => exact absurd hv List.not_mem_nil
  | cons first rest =>
    have hshape : (firstValue (first :: rest)).shape =
        (rest.map (·.shape)).foldl Shape.merge first.shape := by
      rw [List.foldl_map]
      rfl
    rw [hshape]
    refine (Shape.foldl_merge_cases first.shape (rest.map (·.shape))).imp_right fun hsame => ?_
    exact (hsame v.shape (List.mem_map_of_mem (f := Computed.shape) hv)).symm

theorem firstValue_says {values : List Computed} {v : Computed} {said : Option TermShape}
    (hv : v ∈ values) (h : v.shape.Says D row said) :
    (firstValue values).shape.Says D row said := by
  obtain hunknown | hsame := firstValue_shape hv
  · rw [hunknown]
    exact .unknown said
  · rwa [hsame]

/-- One value that is not null is enough, since its shape is the common one. -/
theorem firstValue_present {values : List Computed} (h : ∀ v ∈ values, v.Present D row) :
    (firstValue values).Present D row := by
  intro hnullable
  obtain ⟨v, hv, hnullable⟩ := List.all_eq_false.mp hnullable
  obtain ⟨hvalue, htold⟩ := h v hv (Bool.eq_false_of_not_eq_true hnullable)
  refine ⟨Scalar.eval_coalesce_ne_none ⟨v.scalar, List.mem_map_of_mem hv, hvalue⟩, ?_⟩
  obtain hunknown | hsame := firstValue_shape hv
  · rw [hunknown]
    exact Shape.told_unknown D row
  · rwa [hsame]

mutual

/-- The value of an expression is null only where it is said that it may be. -/
theorem value_present (hs : s.Present D row) : ∀ e : Expression,
    (e.value s).Meets Fault.Any (·.Present D row)
  | var name => hs.variableValue name
  | constant (.var name) => hs.variableValue name
  | constant (.iri _) => fun _ => ⟨Option.some_ne_none _, Shape.told_known D row _⟩
  | constant (.literal _) => fun _ => ⟨Option.some_ne_none _, Shape.told_known D row _⟩
  | str inner => (value_present hs inner).bind fun _ h hnullable =>
    ⟨(h hnullable).1, Shape.told_known D row _⟩
  | lang inner => (value_present hs inner).bind fun v h => by
    cases hx : v.shape.language? with
    | none => trivial
    | some x => exact plainText_present fun hnullable => (h hnullable).2 x hx
  | concat items => (valueEach_present hs items).bind fun values h =>
    plainText_present fun hnullable => Scalar.eval_concat_ne_none fun x hx => by
      obtain ⟨v, hv, rfl⟩ := List.mem_map.mp hx
      exact (h v hv (Bool.eq_false_of_not_eq_true (List.any_eq_false.mp hnullable v hv))).1
  | coalesce items => (valueEach_present hs items).bind fun _ h => firstValue_present h
  | and _ => trivial
  | or _ => trivial
  | not _ => trivial
  | bound _ => trivial
  | compare _ _ _ => trivial
  | langMatches _ _ => trivial
  | strStarts _ _ => trivial
  | strEnds _ _ => trivial
  | contains _ _ => trivial

theorem valueEach_present (hs : s.Present D row) : ∀ es : List Expression,
    (valueEach s es).Meets Fault.Any fun values => ∀ v ∈ values, v.Present D row
  | [] => fun _ h => absurd h List.not_mem_nil
  | e :: rest => (value_present hs e).bind fun _ hv =>
    (valueEach_present hs rest).bind fun _ hrest => List.forall_mem_cons.mpr ⟨hv, hrest⟩

end

/-- A test whether a query variable is bound is true on a row if the value of its binding is not
null there. A query variable that has no binding is null. -/
theorem bound_iff {vs : List Variable} (hscope : s.InScope vs) (hs : s.Present D row)
    (name : String) : ∃ c v, (bound name).condition s = .ok c ∧ s.variableValue name = .ok v ∧
      (c.eval D row = .yes ↔ v.scalar.eval D row ≠ none) := by
  cases hb : s.binding? name with
  | none =>
    refine ⟨.never, _, by rw [condition, hb]; rfl, by rw [ExpressionScope.variableValue, hb], ?_⟩
    simp [Condition.eval, Scalar.eval]
  | some b =>
    obtain ⟨x, hx, -⟩ := (Binding.toScalar_meets hscope.columns (hscope.binding hb)).exists_ok
    have hvalue : s.variableValue name =
        .ok ⟨x, b.type s.table, b.shape, b.nullable, b.escaped⟩ := by
      rw [ExpressionScope.variableValue, hb]
      simp only [hx]
      rfl
    cases hnull : b.nullVariable? with
    | none =>
      refine ⟨.always, _, by rw [condition, hb, Option.map_some, hnull], hvalue, ?_⟩
      have hpresent := hs.variableValue name
      rw [hvalue] at hpresent
      exact iff_of_true rfl (hpresent (b.nullable_of_nullVariable? hnull)).1
    | some v =>
      refine ⟨.notNull v, _, by rw [condition, hb, Option.map_some, hnull], hvalue, ?_⟩
      rw [b.toScalar_of_nullVariable? hnull] at hx
      cases hx
      exact Condition.eval_notNull

end Expression

end Expressions

end VirtualGraph
