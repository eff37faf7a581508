import VirtualGraph.Proofs.Draft.Origins
import VirtualGraph.Proofs.Draft.Shown

/-!
# Drafts that account for their terms

The shape that is kept with a binding may be less than what is known of its terms: it is what all
terms of one branch have in common. On every row that fits a draft, what the shape of a binding says
about the row is true of the term that the account of the row gives. Each step of the construction
keeps this: a binding is made from the term map of a candidate, from the binding of a nested draft,
as the first of two that is not null, or from the value of an expression.
-/

namespace VirtualGraph

variable {α : Type} {D : ValueDomain α} {row : Row α}

/-! ### Bindings and expressions -/

/-- The shape of a binding says what term its value is, out of given ones. -/
def Binding.Tells (D : ValueDomain α) (columns : ColumnIndex) (row : Row α) (b : Binding)
    (given : α → TermShape → Prop) : Prop :=
  ∀ x, b.toScalar columns = .ok x → b.shape.Tells D row x given

namespace Expression

variable {s : ExpressionScope} {given : String → α → TermShape → Prop}

/-- The values of expressions with what their shapes tell. -/
def TellsEach (D : ValueDomain α) (s : ExpressionScope) (row : Row α)
    (given : String → α → TermShape → Prop) : List Expression → List Computed → Prop :=
  List.Forall₂ fun e v => e.value s = .ok v ∧ v.shape.Tells D row v.scalar (e.Gives D s row given)

/-- The first value of several is null, or that of the first member that is not null. -/
theorem TellsEach.first {es : List Expression} {values : List Computed}
    (h : TellsEach D s row given es values) :
    (Scalar.evalFirst D row (values.map (·.scalar)) = none) ∨
      ∃ before e after v a, es = before ++ e :: after ∧ v ∈ values ∧
        (∀ e' ∈ before, ∃ v', e'.value s = .ok v' ∧ v'.scalar.eval D row = none) ∧
        (e.value s = .ok v ∧ v.shape.Tells D row v.scalar (e.Gives D s row given)) ∧
        v.scalar.eval D row = some a ∧ Scalar.evalFirst D row (values.map (·.scalar)) = some a := by
  unfold TellsEach at h
  induction h with
  | nil => exact .inl rfl
  | @cons e v es values hfirst hrest ih =>
    cases hv : v.scalar.eval D row with
    | some a =>
      refine .inr ⟨[], e, es, v, a, rfl, List.mem_cons_self,
        fun _ h => absurd h List.not_mem_nil, hfirst, hv, ?_⟩
      simp [Scalar.evalFirst, hv]
    | none =>
      have hskip : Scalar.evalFirst D row ((v :: values).map (·.scalar)) =
          Scalar.evalFirst D row (values.map (·.scalar)) := by
        simp [Scalar.evalFirst, hv]
      rw [hskip]
      refine ih.imp id ?_
      rintro ⟨before, e', after, v', a, rfl, hmem, hbefore, hvalue, ha, hall⟩
      exact ⟨e :: before, e', after, v', a, rfl, List.mem_cons_of_mem _ hmem,
        List.forall_mem_cons.mpr ⟨⟨v, hfirst.1, hv⟩, hbefore⟩, hvalue, ha, hall⟩

theorem TellsEach.firstValue {es : List Expression} {values : List Computed}
    (h : TellsEach D s row given es values) :
    (firstValue values).shape.Tells D row (firstValue values).scalar
      ((coalesce es).Gives D s row given) := by
  have heval : (Expression.firstValue values).scalar.eval D row =
      Scalar.evalFirst D row (values.map (·.scalar)) := rfl
  obtain hnull | ⟨before, e, after, v, a, rfl, hmem, hbefore, ⟨hv, said, hsaid, htells⟩, ha,
    hall⟩ := h.first
  · refine Shape.tells_of_null ?_ (heval.trans hnull)
    cases h with
    | nil => exact ⟨none, .unknown none⟩
    | cons hfirst _ =>
      obtain ⟨-, said, hsaid, -⟩ := hfirst
      exact ⟨said, firstValue_says List.mem_cons_self hsaid⟩
  · refine ⟨said, firstValue_says hmem hsaid, fun b hb => ?_⟩
    obtain rfl : a = b := Option.some_inj.mp (hall.symm.trans (heval.symm.trans hb))
    obtain ⟨k, hk, hgives⟩ := htells a ha
    exact ⟨k, hk, .coalesce hbefore hv ha hgives⟩

theorem variableValue_tells (hs : ∀ e ∈ s.bindings, e.2.Tells D s.columns row (given e.1))
    (name : String) : (s.variableValue name).Meets Fault.Any fun v =>
      v.shape.Tells D row v.scalar (given name) := by
  unfold ExpressionScope.variableValue
  cases hb : s.binding? name with
  | none => exact Shape.tells_of_null ⟨none, .unknown none⟩ rfl
  | some b =>
    exact (Result.meets_any _).and_eq_ok.bind fun x hx => hs (name, b) (mem_of_lookup hb) x hx.1

mutual

/-- The shape of the value of an expression says what term it is. -/
theorem value_tells (hs : ∀ e ∈ s.bindings, e.2.Tells D s.columns row (given e.1)) :
    ∀ e : Expression, (e.value s).Meets Fault.Any fun v =>
      v.shape.Tells D row v.scalar (e.Gives D s row given)
  | var name => (variableValue_tells hs name).mono fun _ h => h.mono fun _ _ => .var
  | constant (.var name) =>
    (variableValue_tells hs name).mono fun _ h => h.mono fun _ _ => .constantVar
  | constant (.iri _) => Shape.tells_known fun a _ => .constant a rfl
  | constant (.literal _) => Shape.tells_known fun a _ => .constant a rfl
  | str inner => (Result.meets_any _).bind fun _ _ => Shape.tells_known fun a _ => .str inner a
  | lang inner => (Result.meets_any _).bind fun v _ => by
    cases v.shape.language? with
    | none => trivial
    | some x => exact Shape.tells_known fun a _ => .lang inner a
  | concat items =>
    (Result.meets_any _).bind fun _ _ => Shape.tells_known fun a _ => .concat items a
  | coalesce items => (valueEach_tells hs items).bind fun _ h => h.firstValue
  | and _ => trivial
  | or _ => trivial
  | not _ => trivial
  | bound _ => trivial
  | compare _ _ _ => trivial
  | langMatches _ _ => trivial
  | strStarts _ _ => trivial
  | strEnds _ _ => trivial
  | contains _ _ => trivial

theorem valueEach_tells (hs : ∀ e ∈ s.bindings, e.2.Tells D s.columns row (given e.1)) :
    ∀ es : List Expression, (valueEach s es).Meets Fault.Any (TellsEach D s row given es)
  | [] => List.Forall₂.nil
  | e :: rest => (value_tells hs e).and_eq_ok.bind fun _ hv => (valueEach_tells hs rest).bind
    fun _ hrest => List.Forall₂.cons ⟨hv.1, hv.2⟩ hrest

end

end Expression

/-! ### Drafts -/

section Columns

variable {columns : ColumnIndex} {x : Scalar}

theorem ColumnIndex.get_append {n : Nat} {name : String} {v : Variable} (new : ColumnIndex)
    (h : columns.get n name = .ok v) : (columns ++ new).get n name = .ok v := by
  unfold ColumnIndex.get at h ⊢
  cases hv : columns.lookup (n, name) with
  | none =>
    rw [hv] at h
    cases h
  | some w =>
    rw [hv] at h
    rw [List.lookup_append, hv]
    exact h

theorem PatternItem.toScalars_append (new : ColumnIndex) (decode : Bool) {items : List PatternItem}
    {xs : List Scalar} (h : toScalars columns decode items = .ok xs) :
    toScalars (columns ++ new) decode items = .ok xs := by
  induction items generalizing xs with
  | nil => exact h
  | cons item items ih =>
    obtain ⟨x, hx, h⟩ := Result.bind_eq_ok.mp h
    obtain ⟨rest, hrest, h⟩ := Result.bind_eq_ok.mp h
    have hitem : item.toScalar (columns ++ new) decode = .ok x := by
      cases item with
      | text t => exact hx
      | slot s =>
        cases hv : columns.get s.row s.column with
        | error f => simp [toScalar, hv, Except.map] at hx
        | ok v =>
          rw [toScalar, ColumnIndex.get_append new hv]
          rwa [toScalar, hv] at hx
    exact Result.bind_eq_ok.mpr ⟨x, hitem, Result.bind_eq_ok.mpr ⟨rest, ih hrest, h⟩⟩

theorem Binding.toScalar_append (b : Binding) (new : ColumnIndex) (h : b.toScalar columns = .ok x) :
    b.toScalar (columns ++ new) = .ok x := by
  cases b with
  | value v shape nullable escaped => exact h
  | term t =>
    have hmap : (PatternItem.toScalars columns false t.pattern.items).map Scalar.join = .ok x := h
    show (PatternItem.toScalars (columns ++ new) false t.pattern.items).map Scalar.join = .ok x
    cases hxs : PatternItem.toScalars columns false t.pattern.items with
    | error f => simp [hxs, Except.map] at hmap
    | ok xs => rwa [PatternItem.toScalars_append new false hxs, ← hxs]

end Columns

theorem Shape.Tells.of_eval_eq {s : Shape} {x y : Scalar} {given : α → TermShape → Prop}
    (h : s.Tells D row x given) (heval : y.eval D row = x.eval D row) :
    s.Tells D row y given := by
  obtain ⟨said, hsaid, hvalue⟩ := h
  exact ⟨said, hsaid, fun a ha => hvalue a (heval.symm.trans ha)⟩

theorem Binding.Tells.mono {b : Binding} {columns : ColumnIndex}
    {given given' : α → TermShape → Prop}
    (h : b.Tells D columns row given) (hgiven : ∀ a k, given a k → given' a k) :
    b.Tells D columns row given' :=
  fun x hx => (h x hx).mono hgiven

namespace Draft

open DraftBuilder

variable {S : Reading α} {t t' T : VariableTable} {d d' d'' : Draft} {account account' : Account α}
variable {name : String} {b : Binding}

/-- On every row that fits a draft, a binding tells the term that the account gives. -/
def Tells (S : Reading α) (t : VariableTable) (d : Draft) (account : Account α) (name : String)
    (b : Binding) : Prop :=
  ∀ T, t <+: T → ∀ row, d.Fits S T row → b.Tells S.domain d.columns row (account T row name)

theorem Tells.mono (h : d.Tells S t account name b) (ht : t <+: t') (hd : d.Inside d')
    (hcolumns : d'.columns = d.columns) : d'.Tells S t' account name b :=
  fun T hT row hrow => hcolumns ▸ h T (ht.trans hT) row (hrow.inside hd)

theorem Tells.account_mono (h : d.Tells S t account name b)
    (haccount : ∀ T row a k, account T row name a k → account' T row name a k) :
    d.Tells S t account' name b :=
  fun T hT row hrow => (h T hT row hrow).mono (haccount T row)

/-- All bindings of a draft tell the terms that the account gives. -/
def Accounted (S : Reading α) (t : VariableTable) (d : Draft) (account : Account α) : Prop :=
  ∀ e ∈ d.bindings, d.Tells S t account e.1 e.2

theorem accounted_empty : empty.Accounted S t account :=
  fun _ he => absurd he List.not_mem_nil

theorem Accounted.account_mono (h : d.Accounted S t account)
    (haccount : ∀ T row name a k, account T row name a k → account' T row name a k) :
    d.Accounted S t account' :=
  fun e he => (h e he).account_mono fun T row => haccount T row e.1

/-- A draft with the same columns as one inside it. -/
theorem Accounted.grow (h : d.Accounted S t account) (ht : t <+: t') (hd : d.Inside d')
    (hcolumns : d'.columns = d.columns)
    (hbindings : ∀ e ∈ d'.bindings, e ∈ d.bindings ∨ d'.Tells S t' account e.1 e.2) :
    d'.Accounted S t' account :=
  fun e he => (hbindings e he).elim (fun he => (h e he).mono ht hd hcolumns) id

theorem Accounted.mono (h : d.Accounted S t account) (ht : t <+: t') : d.Accounted S t' account :=
  h.grow ht (.refl d) rfl fun _ he => .inl he

theorem Accounted.addFilter (h : d.Accounted S t account) (c : Condition) :
    (d.addFilter c).Accounted S t account :=
  h.grow (List.prefix_refl t) (inside_addFilter d c) rfl fun _ he => .inl he

theorem Accounted.addSource (h : d.Accounted S t account) (s : Source) :
    (d.addSource s).Accounted S t account :=
  h.grow (List.prefix_refl t) (inside_addSource d s) rfl fun _ he => .inl he

theorem Accounted.assign (h : d.Accounted S t account) (ht : t <+: t') (v : Variable) (x : Scalar) :
    (d.assign v x).Accounted S t' account :=
  h.grow ht (inside_assign d v x) rfl fun _ he => .inl he

theorem Accounted.setBinding (h : d.Accounted S t account) (hb : d.Tells S t account name b) :
    (d.setBinding name b).Accounted S t account := by
  refine h.grow (List.prefix_refl t) (inside_setBinding d name b) rfl fun e he => ?_
  obtain rfl | he := Bindings.mem_insert he
  · exact .inr (hb.mono (List.prefix_refl t) (inside_setBinding d name b) rfl)
  · exact .inl he

/-- A variable that is assigned a value tells its term as the value does. -/
theorem tells_assigned {x : Scalar} {s : Shape} (nullable escaped : Bool) (ht : t <+: t')
    (h : ∀ T, t <+: T → ∀ row, d.Fits S T row → s.Tells S.domain row x (account T row name))
    (v : Variable) : (d.assign v x).Tells S t' account name (.value v s nullable escaped) := by
  intro T hT row hrow y hy
  cases hy
  exact (h T (ht.trans hT) row (hrow.inside (inside_assign d v x))).of_eval_eq
    (always_assign S t' d v x T hT row hrow)

/-! ### Steps -/

/-- A step that keeps the bindings accounted for, and reads no columns. -/
def Explains (S : Reading α) (t : VariableTable) (d : Draft) (account : Account α)
    (x : DraftBuilder Draft) : Prop :=
  x.Builds Fault.Any t fun d' t' => d'.Accounted S t' account ∧ d.Inside d' ∧ d'.columns = d.columns

section Steps

variable {x : DraftBuilder Draft} {f : Draft → DraftBuilder Draft}

theorem explains_pure (h : d'.Accounted S t account) (hd : d.Inside d')
    (hcolumns : d'.columns = d.columns) : d.Explains S t account (pure d') :=
  builds_pure ⟨h, hd, hcolumns⟩

theorem Explains.bind (h : d.Explains S t account x)
    (hf : ∀ d' t', t <+: t' → d'.Accounted S t' account → d.Inside d' → d'.columns = d.columns →
      d'.Explains S t' account (f d')) : d.Explains S t account (x >>= f) := by
  refine Builds.bind h fun d' t' ht hd' => ?_
  obtain ⟨haccounted, hinside, hcolumns⟩ := hd'
  exact (hf d' t' ht haccounted hinside hcolumns).mono fun _ _ _ hd =>
    ⟨hd.1, hinside.trans hd.2.1, hd.2.2.trans hcolumns⟩

theorem Explains.of_inside (hd : d.Inside d') (hcolumns : d'.columns = d.columns)
    (h : d'.Explains S t account x) : d.Explains S t account x :=
  h.mono fun _ _ _ h => ⟨h.1, hd.trans h.2.1, h.2.2.trans hcolumns⟩

/-- The common binding of two tells the term of the first that is not null. -/
theorem merge_builds_accounted (h : d.Accounted S t account) {existing new : Binding}
    (hexisting : d.Tells S t account name existing) (hnew : d.Tells S t account name new) :
    (d.merge existing new).Builds Fault.Any t fun r t' =>
      (r.1.Accounted S t' account ∧ d.Inside r.1 ∧ r.1.columns = d.columns) ∧
        r.1.Tells S t' account name r.2 := by
  unfold merge
  split
  · exact builds_pure ⟨⟨h, .refl d, rfl⟩, hexisting⟩
  · split
    · exact builds_pure ⟨⟨h, .refl d, rfl⟩, hnew⟩
    · refine builds_get_bind <| builds_lift_bind (Result.meets_any _).and_eq_ok fun x hx =>
        builds_lift_bind (Result.meets_any _).and_eq_ok fun y hy => builds_fresh_bind <|
          builds_pure ?_
      have ht := List.prefix_append t
        [⟨.derived, (existing.type t).common (new.type t), true⟩]
      refine ⟨⟨h.assign ht _ _, inside_assign d _ _, rfl⟩, tells_assigned _ _ ht ?_ _⟩
      intro T hT row hrow
      exact (hexisting T hT row hrow x hx.1).coalesce (hnew T hT row hrow y hy.1)

theorem bind_explains (h : d.Accounted S t account) (hb : d.Tells S t account name b) :
    d.Explains S t account (d.bind name b) := by
  unfold bind
  split
  · exact explains_pure (h.setBinding hb) (inside_setBinding d name b) rfl
  · rename_i existing hlookup
    refine builds_lift_bind (Result.meets_any _) fun c _ => ?_
    have hinside := inside_addFilter d c
    refine Explains.of_inside hinside rfl ?_
    have hexisting := (h _ (mem_of_lookup hlookup)).mono (List.prefix_refl t) hinside rfl
    refine (merge_builds_accounted (h.addFilter c) hexisting
      (hb.mono (List.prefix_refl t) hinside rfl)).bind fun r t' ht hr => ?_
    obtain ⟨d', merged⟩ := r
    obtain ⟨⟨haccounted, hinside', hcolumns⟩, hmerged⟩ := hr
    exact builds_pure ⟨haccounted.setBinding hmerged,
      hinside'.trans (inside_setBinding d' name merged), hcolumns⟩

theorem bindAll_explains {bs : Bindings} (h : d.Accounted S t account)
    (hbs : ∀ e ∈ bs, d.Tells S t account e.1 e.2) : d.Explains S t account (bindAll d bs) := by
  induction bs generalizing d t with
  | nil => exact explains_pure h (.refl d) rfl
  | cons e bs ih =>
    obtain ⟨name, b⟩ := e
    rw [List.forall_mem_cons] at hbs
    refine (bind_explains h hbs.1).bind fun d' t' ht haccounted hinside hcolumns => ?_
    exact ih haccounted fun e he => (hbs.2 e he).mono ht hinside hcolumns

/-! ### Candidates -/

/-- A draft with more columns, and otherwise with the same bindings. -/
structure Widens (d d' : Draft) : Prop where
  inside : d.Inside d'
  bindings : d'.bindings = d.bindings
  columns : ∃ new, d'.columns = d.columns ++ new

theorem Widens.refl (d : Draft) : d.Widens d := ⟨.refl d, rfl, [], (List.append_nil _).symm⟩

theorem Widens.trans (h : d.Widens d') (h' : d'.Widens d'') : d.Widens d'' := by
  obtain ⟨new, hnew⟩ := h.columns
  obtain ⟨new', hnew'⟩ := h'.columns
  refine ⟨h.inside.trans h'.inside, h'.bindings.trans h.bindings, new ++ new', ?_⟩
  rw [hnew', hnew, List.append_assoc]

theorem addColumn_widens (d : Draft) (n : Nat) (table : LogicalTable) (name : String) :
    (d.addColumn n table name).Builds Fault.Any t fun d' _ => d.Widens d' := by
  unfold addColumn
  split
  · exact builds_pure (.refl d)
  · refine builds_fresh_bind (builds_pure ?_)
    have hinside := inside_withColumn d n name t.length
    split
    · exact ⟨hinside.trans (inside_addFilter _ _), rfl, _, rfl⟩
    · exact ⟨hinside, rfl, _, rfl⟩

theorem addColumns_widens {rows : List (Nat × LogicalTable)} {columns : List (Nat × String)} :
    (addColumns rows d columns).Builds Fault.Any t fun d' _ => d.Widens d' := by
  induction columns generalizing d t with
  | nil => exact builds_pure (.refl d)
  | cons column columns ih =>
    rw [addColumns]
    split
    · exact (addColumn_widens d _ _ _).bind fun _ _ _ hd' => ih.mono fun _ _ _ h => hd'.trans h
    · exact builds_throw trivial

theorem widens_addRows (rows : List (Nat × LogicalTable)) : d.Widens (rows.foldl addRow d) := by
  induction rows generalizing d with
  | nil => exact .refl d
  | cons r rows ih =>
    refine Widens.trans ⟨inside_addRow d r, ?_, [], ?_⟩ ih
    · unfold addRow
      split <;> rfl
    · rw [List.append_nil]
      unfold addRow
      split <;> rfl

theorem addJoins_widens {joins : List ((Nat × String) × (Nat × String))} :
    (addJoins d joins).Meets Fault.Any fun d' => d.Widens d' := by
  induction joins generalizing d with
  | nil => exact .refl d
  | cons j joins ih =>
    refine (Result.meets_any _).bind fun v _ => (Result.meets_any _).bind fun w _ => ?_
    exact ih.mono fun _ hd' =>
      Widens.trans ⟨inside_addFilter d _, rfl, [], (List.append_nil _).symm⟩ hd'

theorem addTerms_explains {c : Candidate} {positions : List Position} (h : d.Accounted S t account)
    (hc : ∀ p name, c.queryTerm p = .var name → d.Tells S t account name (.term (c.term p))) :
    d.Explains S t account (addTerms c d positions) := by
  induction positions generalizing d t with
  | nil => exact explains_pure h (.refl d) rfl
  | cons p positions ih =>
    rw [addTerms]
    split
    · rename_i name hname
      refine (bind_explains h (hc p name hname)).bind fun d' t' ht haccounted hinside hcolumns => ?_
      exact ih haccounted fun p name hname => (hc p name hname).mono ht hinside hcolumns
    · split
      · refine builds_lift_bind (Result.meets_any _) fun condition _ => ?_
        have hinside := inside_addFilter d condition
        refine Explains.of_inside hinside rfl (ih (h.addFilter condition) ?_)
        exact fun p name hname => (hc p name hname).mono (List.prefix_refl t) hinside rfl
      · exact ih h hc

/-- A sound draft finds its columns as before, so its bindings tell the same. -/
theorem Accounted.widen (h : d.Accounted S t account) (hsound : d.Sound t) (ht : t <+: t')
    (hd : d.Widens d') : d'.Accounted S t' account := by
  intro e he T hT row hrow x hx
  rw [hd.bindings] at he
  obtain ⟨y, hy, -⟩ := (Binding.toScalar_meets hsound.within (hsound.bindings e he)).exists_ok
  obtain ⟨new, hnew⟩ := hd.columns
  have hsame : e.2.toScalar d'.columns = .ok y := hnew ▸ e.2.toScalar_append new hy
  rw [Except.ok.inj (hx.symm.trans hsame)]
  exact h e he T (ht.trans hT) row (hrow.inside hd.inside) y hy

/-- The triples of a candidate give its terms. -/
theorem addCandidate_accounted (h : d.Accounted S t account) (hsound : d.Sound t) (c : Candidate) :
    (d.addCandidate c).Builds Fault.Any t fun d' t' => d.Inside d' ∧
      d'.Accounted S t' (account.or fun _ => c.Gives S.domain d'.columns) := by
  unfold addCandidate
  refine addColumns_widens.bind fun d₁ t₁ ht₁ hd₁ => ?_
  refine builds_lift_bind addJoins_widens fun d₂ hd₂ => ?_
  have hwidens := (widens_addRows c.rows).trans (hd₁.trans hd₂)
  have haccounted : d₂.Accounted S t₁ (account.or fun _ => c.Gives S.domain d₂.columns) :=
    (h.widen hsound ht₁ hwidens).account_mono fun _ _ _ _ _ => .inl
  refine (addTerms_explains haccounted fun p name hname T _ row _ x hx => ?_).mono
    fun d' _ _ hd' => ⟨hwidens.inside.trans hd'.2.1, ?_⟩
  · exact Shape.tells_known fun a ha => .inr ⟨p, x, hname, hx, ha, rfl⟩
  · rw [hd'.2.2]
    exact hd'.1

/-! ### Expressions -/

theorem Accounted.scope (h : d.Accounted S t account) (hT : t <+: T) (names : List String)
    (hrow : d.Fits S T row) :
    ∀ e ∈ (d.scope t names).bindings, e.2.Tells S.domain d.columns row (account T row e.1) :=
  fun e he => h e (List.mem_filter.mp he).1 T hT row hrow

theorem extend_explains (h : d.Accounted S t account) (names : List String) (name : String)
    (e : Expression) : (d.extend names name e).Builds Fault.Any t fun d' t' =>
      (d'.Accounted S t' (account.or (account.computed S.domain (d.scope t names) name e)) ∧
        d.Inside d') ∧ e.Assigned (d.scope t names) d'.assignments := by
  have hor : d.Accounted S t (account.or (account.computed S.domain (d.scope t names) name e)) :=
    h.account_mono fun _ _ _ _ _ => .inl
  unfold extend
  refine builds_get_bind ?_
  simp only
  split
  · exact builds_throw trivial
  · split
    · rename_i b hb
      split at hb
      · refine (bind_explains hor fun T hT row hrow => ?_).mono fun d' _ _ hd' =>
          ⟨⟨hd'.1, hd'.2.1⟩, .inl ⟨_, b, rfl, hb⟩⟩
        exact (h.scope hT names hrow _ (mem_of_lookup hb)).mono fun a k hak => .inr ⟨rfl, .var hak⟩
      · cases hb
    · refine builds_lift_bind (Result.meets_any _).and_eq_ok fun v hv => ?_
      split
      · rename_i hnull
        exact builds_pure ⟨⟨hor, .refl d⟩, .inr ⟨v, hv.1, .inl hnull⟩⟩
      · refine builds_fresh_bind ?_
        have ht := List.prefix_append t [⟨.derived, v.type, v.nullable⟩]
        have hinside := inside_assign d t.length v.scalar
        refine (bind_explains (hor.assign ht _ _) (tells_assigned _ _ ht
          (fun T hT row hrow => ?_) _)).mono fun d' _ _ hd' =>
            ⟨⟨hd'.1, hinside.trans hd'.2.1⟩, .inr ⟨v, hv.1, .inr ⟨t.length, ?_⟩⟩⟩
        · have htells := Expression.value_tells (h.scope hT names hrow) e
          rw [hv.1] at htells
          exact Shape.Tells.mono htells fun a k hak => .inr ⟨rfl, hak⟩
        · exact hd'.2.1.assignments (List.mem_append_right _ List.mem_cons_self)

end Steps

/-! ### Nested drafts -/

/-- A row that a block exposes comes from one that it keeps. -/
theorem exists_keeps_of_mem_rows {block : Block} {db : Database α}
    (h : row ∈ block.rows D db t) :
    ∃ inner, block.Keeps D db t inner ∧ row = inner.restrict block.exposed := by
  obtain ⟨inner, hinner, hfilters, rfl⟩ := Block.mem_rows.mp h
  exact ⟨inner, ⟨hinner, hfilters⟩, rfl⟩

theorem Sound.fits_of_keeps (h : d.Sound T) {exposed : List Variable}
    (hrow : (d.toBlock exposed).Keeps S.domain S.db T row) : d.Fits S T row :=
  h.fits_of_mem_candidateRows hrow.1 fun _ _ hfilter =>
    Condition.eval_notNull.mp (hrow.2 _ hfilter)

/-- What a block exposes tells the term of the row that it comes from. -/
theorem tells_of_exposed {v : Variable} {s : Shape} {x : Scalar} {inner : Row α}
    {exposed : List Variable} {given : α → TermShape → Prop} (h : s.Tells D inner x given)
    (hindices : s.indices ⊆ exposed) (hrow : ∀ w ∈ exposed, row w = inner w)
    (hv : row v = x.eval D inner) : s.Tells D row (.column v) given := by
  obtain ⟨said, hsaid, hvalue⟩ := h
  refine ⟨said, hsaid.congr fun w hw => hrow w (hindices hw), fun a ha => hvalue a ?_⟩
  exact hv.symm.trans ha

/-- The bindings to the right side of a left join, and the draft that it becomes. -/
structure Nests (S : Reading α) (t : VariableTable) (inner : Draft) (account : Account α)
    (s : Source) (bindings : Bindings) : Prop where
  block : ∃ d exposed, (∃ on, s = .leftJoin (d.toBlock exposed) on exposed) ∧ d.Sound t ∧
    inner.Inside d ∧ ∀ e ∈ bindings, ∃ v shape nullable escaped,
      e.2 = .value v shape nullable escaped ∧ v ∈ exposed ∧ shape.indices ⊆ exposed ∧
        d.Tells S t account e.1 e.2

theorem exposeAll_builds_accounted {exposed : List Variable} {bs : Bindings}
    (h : ∀ e ∈ bs, d.Tells S t account e.1 e.2) :
    (exposeAll d exposed bs).Builds Fault.Any t fun r t' =>
      (d.Inside r.1 ∧ r.1.columns = d.columns) ∧ ∀ e ∈ r.2.2, ∃ v shape nullable escaped,
        e.2 = .value v shape nullable escaped ∧ r.1.Tells S t' account e.1 e.2 := by
  induction bs generalizing d exposed t with
  | nil => exact builds_pure ⟨⟨.refl d, rfl⟩, fun _ he => absurd he List.not_mem_nil⟩
  | cons e bs ih =>
    obtain ⟨name, b⟩ := e
    rw [List.forall_mem_cons] at h
    have ht := List.prefix_append t [⟨.derived, b.type t, b.nullable⟩]
    refine builds_get_bind <| builds_lift_bind (Result.meets_any _).and_eq_ok fun x hx =>
      builds_fresh_bind ?_
    have hinside := inside_assign d t.length x
    refine (ih fun e he => (h.2 e he).mono ht hinside rfl).bind fun r t' ht' hr => ?_
    obtain ⟨nested, exposed', bindings⟩ := r
    obtain ⟨⟨hinside', hcolumns⟩, hbindings⟩ := hr
    refine builds_pure ⟨⟨hinside.trans hinside', hcolumns⟩, List.forall_mem_cons.mpr
      ⟨⟨t.length, b.shape, b.nullable, b.escaped, rfl, ?_⟩, hbindings⟩⟩
    exact (tells_assigned b.nullable b.escaped ht (fun T hT row hrow => h.1 T hT row hrow x hx.1)
      t.length).mono ht' hinside' hcolumns

/-- A left join is made from a nested draft. Its condition sees the bindings of the left side and
those to the right side. -/
theorem leftJoinSource_nests {inner : Draft} (hsound : inner.Sound t)
    (h : inner.Accounted S t account) (names : List String) (condition : Option Expression) :
    (d.leftJoinSource names inner condition).Builds Fault.Any t fun r t' =>
      Nests S t' inner account r.1 r.2.1 ∧ r.2.2.columns = d.columns ∧
        r.2.2.bindings = d.bindings.restrict names ++ r.2.1 ∧
          ∃ on, r.1.on? = some on ∧ ∀ e ∈ condition, ∃ c ∈ on, e.condition r.2.2 = .ok c := by
  have hexposed := exposeAll_builds hsound (List.nil_subset _) List.nodup_nil hsound.bindings
  refine (hexposed.of_excluded.and (exposeAll_builds_accounted h)).bind fun r t' ht hr => ?_
  obtain ⟨inner', exposed, bindings⟩ := r
  obtain ⟨⟨⟨hsound', -⟩, -, hscope⟩, ⟨hinside, -⟩, htells⟩ := hr
  have hnests : ∀ on : List Condition, Nests S t' inner account
      (.leftJoin (inner'.toBlock exposed) on exposed) bindings := by
    refine fun on => ⟨inner', exposed, ⟨on, rfl⟩, hsound', hinside, fun e he => ?_⟩
    obtain ⟨v, shape, nullable, escaped, heq, htells⟩ := htells e he
    have hb := hscope e he
    rw [heq] at hb
    exact ⟨v, shape, nullable, escaped, heq, hb.1, hb.2, htells⟩
  refine builds_lift_bind (Result.meets_any _) fun shared _ => builds_get_bind ?_
  cases condition with
  | none => exact builds_pure ⟨hnests _, rfl, rfl, _, rfl, fun _ he => by cases he⟩
  | some e =>
    refine builds_lift_bind (Result.meets_any _).and_eq_ok fun c hc => builds_pure ?_
    refine ⟨hnests _, rfl, rfl, _, rfl, fun e' he' => ?_⟩
    cases he'
    exact ⟨c, List.mem_append_right _ List.mem_cons_self, hc.1⟩

section Nests

variable {inner : Draft} {s : Source} {bindings : Bindings} {e : String × Binding}

/-- On a row that has a row of the right side, a binding to it tells the term of that row. -/
theorem Nests.tells_of_matched (h : Nests S t inner account s bindings) (he : e ∈ bindings)
    (hT : t <+: T) (hrow : Source.Matched row (s, Block.sourceRows S.domain S.db T s))
    (columns : ColumnIndex) : e.2.Tells S.domain columns row
      (account.joined S.domain S.db s T row e.1) := by
  obtain ⟨d, exposed, ⟨on, rfl⟩, hsound, -, hbindings⟩ := h.block
  obtain ⟨v, shape, nullable, escaped, heq, hv, hindices, htells⟩ := hbindings e he
  obtain ⟨r, hr, hmatch⟩ := hrow
  obtain ⟨full, hkeeps, rfl⟩ := exists_keeps_of_mem_rows hr
  have hexposed : ∀ w ∈ exposed, row w = full w := fun w hw =>
    (hmatch w hw).trans (Row.restrict_of_mem hw)
  have htold := htells T hT full ((hsound.mono hT).fits_of_keeps hkeeps)
  rw [heq] at htold ⊢
  intro x hx
  cases hx
  refine (tells_of_exposed (htold _ rfl) hindices hexposed (hexposed v hv)).mono fun a k hak => ?_
  exact ⟨d.toBlock exposed, List.mem_cons_self, full, hkeeps, hexposed, hak⟩

/-- On a row of a left join, a binding to its right side tells the term of the row of the right
side, or is null. -/
theorem Nests.tells_padded (h : Nests S t inner account s bindings) (he : e ∈ bindings) :
    (d.addSource s).Tells S t (account.joined S.domain S.db s) e.1 e.2.padded := by
  obtain ⟨inner', exposed, ⟨on, hs⟩, -, -, hbindings⟩ := h.block
  obtain ⟨v, shape, nullable, escaped, heq, hv, hindices, -⟩ := hbindings e he
  intro T hT row hrow
  obtain hmatched | ⟨-, hnull⟩ := hrow.sources s (List.mem_append_right _ List.mem_cons_self)
  · have htells := h.tells_of_matched he hT hmatched d.columns
    rw [heq] at htells ⊢
    exact htells
  · rw [heq]
    intro x hx
    cases hx
    have hproduced : s.produced = exposed := by
      rw [hs]
      rfl
    rw [hproduced] at hnull
    exact Shape.tells_of_null (Shape.exists_says_of_null fun w hw => hnull w (hindices hw))
      (hnull v hv)

end Nests

theorem bindAgreed_explains (names : List String) (h : d.Accounted S t account)
    (hb : d.Tells S t account name b) : d.Explains S t account (bindAgreed names d name b) := by
  unfold bindAgreed
  split
  · rename_i existing _ hexisting
    refine (merge_builds_accounted h (h _ (mem_of_lookup hexisting)) hb).bind
      fun r t' ht hr => ?_
    obtain ⟨d', merged⟩ := r
    obtain ⟨⟨haccounted, hinside, hcolumns⟩, hmerged⟩ := hr
    exact builds_pure ⟨haccounted.setBinding hmerged,
      hinside.trans (inside_setBinding d' name merged), hcolumns⟩
  · exact bind_explains h hb

theorem bindOptional_explains (names : List String) {bs : Bindings} (h : d.Accounted S t account)
    (hbs : ∀ e ∈ bs, d.Tells S t account e.1 e.2.padded) :
    d.Explains S t account (bindOptional names d bs) := by
  induction bs generalizing d t with
  | nil => exact explains_pure h (.refl d) rfl
  | cons e bs ih =>
    obtain ⟨name, b⟩ := e
    rw [List.forall_mem_cons] at hbs
    rw [bindOptional_cons]
    refine (bindAgreed_explains names h hbs.1).bind fun d' t' ht haccounted hinside hcolumns => ?_
    exact ih haccounted fun e he => (hbs.2 e he).mono ht hinside hcolumns

end Draft

/-! ### Unions -/

namespace UnionDraft

open DraftBuilder

variable {S : Reading α} {t t' T : VariableTable} {index output : Variable} {name : String}
variable {u u' : UnionDraft} {drafts : List Draft}

/-- In a branch, an output holds the value of a binding. A branch without a binding does not have
the output. -/
inductive Holds (t : VariableTable) (output : Variable) :
    Option Binding → Draft × List Variable → Prop
  | unbound {e : Draft × List Variable} (htaken : output < t.length) (h : output ∉ e.1.vars) :
    Holds t output none e
  | bound {e : Draft × List Variable} {b : Binding} {x : Scalar}
    (hx : b.toScalar e.1.columns = .ok x) (hassigned : ⟨output, x⟩ ∈ e.1.assignments)
    (hexposed : output ∈ e.2) (hindices : b.shape.indices ⊆ e.2) : Holds t output (some b) e

/-- A branch goes on from a draft without new bindings or columns. -/
structure Continues (d : Draft) (e : Draft × List Variable) : Prop where
  inside : d.Inside e.1
  bindings : e.1.bindings = d.bindings
  columns : e.1.columns = d.columns

/-- Every query variable of a union has an output that holds its values in all branches. -/
structure Outputs (t : VariableTable) (index : Variable) (drafts : List Draft) (u : UnionDraft) :
    Prop where
  branches : List.Forall₂ Continues drafts u.branches
  bindings : ∀ b ∈ u.bindings, ∃ output nullable escaped, b.2 = .value output
    (shape index (drafts.map fun d => (d.bindings.lookup b.1).map Binding.shape)) nullable escaped ∧
      output ∈ u.vars ∧
        List.Forall₂ (fun d e => Holds t output (d.bindings.lookup b.1) e) drafts u.branches

theorem forall₂_comp {β γ δ : Type} {R : β → γ → Prop} {Q : γ → δ → Prop} {P : β → δ → Prop}
    {as : List β} {bs : List γ} {cs : List δ} (h : List.Forall₂ R as bs)
    (h' : List.Forall₂ Q bs cs) (hP : ∀ b ∈ bs, ∀ a c, R a b → Q b c → P a c) :
    List.Forall₂ P as cs := by
  induction h generalizing cs with
  | nil =>
    cases h'
    exact .nil
  | cons hfirst _ ih =>
    cases h' with
    | cons hfirst' hrest' =>
      rw [List.forall_mem_cons] at hP
      exact .cons (hP.1 _ _ hfirst hfirst') (ih hrest' hP.2)

theorem Exposes.continues {d : Draft} {e e' : Draft × List Variable} (h : Continues d e)
    (hexposes : Exposes output name e e') : Continues d e' := by
  cases hexposes with
  | unbound _ => exact h
  | bound _ _ => exact ⟨h.inside.trans (Draft.inside_assign _ _ _), h.bindings, h.columns⟩

/-- An output keeps its values when another one is exposed. -/
theorem Holds.expose {b? : Option Binding} {e e' : Draft × List Variable}
    (h : Holds t output b? e) (hexposes : Exposes t.length name e e') (ht : t <+: t') :
    Holds t' output b? e' := by
  have hsubset := hexposes.widens.2
  cases h with
  | unbound htaken hnot =>
    refine .unbound (Nat.lt_of_lt_of_le htaken ht.length_le) ?_
    cases hexposes with
    | unbound _ => exact hnot
    | bound _ _ =>
      rw [Draft.vars_assign, List.mem_append, List.mem_singleton, not_or]
      exact ⟨hnot, Nat.ne_of_lt htaken⟩
  | bound hx hassigned hexposed hindices =>
    refine .bound ?_ (hexposes.widens.1.assignments hassigned) (hsubset hexposed)
      (List.Subset.trans hindices hsubset)
    · cases hexposes <;> exact hx

/-- The next output holds the values of its query variable. -/
theorem Exposes.holds {e e' : Draft × List Variable} (hexposes : Exposes t.length name e e')
    (hsound : e.1.Sound t) (info : VariableInfo) :
    Holds (t ++ [info]) t.length (e.1.bindings.lookup name) e' := by
  cases hexposes with
  | unbound hnone =>
    rw [hnone]
    exact .unbound (by simp) fun hmem => Nat.lt_irrefl _ (hsound.taken _ hmem)
  | bound hb hx =>
    rw [hb]
    refine .bound hx (List.mem_append_right _ List.mem_cons_self) ?_ fun v hv => ?_
    · exact mem_addVariables.mpr (.inl (List.mem_append_right _ List.mem_cons_self))
    · exact mem_addVariables.mpr (.inr hv)

theorem shapes_of_continues {branches : List (Draft × List Variable)}
    (h : List.Forall₂ Continues drafts branches) (name : String) :
    (branches.map fun e => e.1.bindings.lookup name).map (·.map Binding.shape) =
      drafts.map fun d => (d.bindings.lookup name).map Binding.shape := by
  induction h with
  | nil => rfl
  | cons hfirst _ ih =>
    exact congrArg₂ List.cons
      (congrArg (fun bs => (List.lookup name bs).map Binding.shape) hfirst.bindings) ih

theorem addName_outputs (h : u.Outputs t index drafts) (hsound : u.Sound t index)
    (name : String) : (u.addName index name).Builds Fault.Any t fun u' t' =>
      u'.Outputs t' index drafts := by
  refine builds_get_bind (builds_fresh_bind ?_)
  refine builds_lift_bind (exposeName_forall₂ t.length name u.branches) fun r hr => builds_pure ?_
  obtain ⟨branches, indices⟩ := r
  refine ⟨forall₂_comp h.branches hr fun _ _ _ _ hd hexposes => hexposes.continues hd,
    fun b hb => ?_⟩
  obtain hb | hb := List.mem_append.mp hb
  · obtain ⟨output, nullable, escaped, heq, hmem, hholds⟩ := h.bindings b hb
    refine ⟨output, nullable, escaped, heq, mem_addVariables.mpr (.inl ?_), ?_⟩
    · exact List.mem_append_left _ hmem
    · exact forall₂_comp hholds hr fun _ _ _ _ hd hexposes =>
        hd.expose hexposes (List.prefix_append t _)
  · obtain rfl := List.mem_singleton.mp hb
    refine ⟨t.length, _, _, congrArg (fun shapes => Binding.value t.length (shape index shapes) _ _)
      (shapes_of_continues h.branches name), mem_addVariables.mpr (.inl ?_), ?_⟩
    · exact List.mem_append_right _ List.mem_cons_self
    · refine forall₂_comp h.branches hr fun e he d _ hd hexposes => ?_
      rw [← hd.bindings]
      exact hexposes.holds (hsound.branches e he).sound _

theorem addNames_outputs {names : List String} (h : u.Outputs t index drafts)
    (hsound : u.Sound t index) (hindex : index < t.length) :
    (addNames index u names).Builds Fault.Any t fun u' t' => u'.Outputs t' index drafts := by
  induction names generalizing u t with
  | nil => exact builds_pure h
  | cons name names ih =>
    refine ((addName_builds hsound hindex name).of_excluded.and
      (addName_outputs h hsound name)).bind fun u' t' ht hu' => ?_
    exact ih hu'.2 hu'.1 (Nat.lt_of_lt_of_le hindex ht.length_le)

theorem outputs_ofDrafts (drafts : List Draft) :
    Outputs t index drafts ⟨drafts.map (·, []), [], []⟩ := by
  refine ⟨List.forall₂_map_right_iff.mpr (List.forall₂_same.mpr fun d _ => ?_),
    fun _ hb => absurd hb List.not_mem_nil⟩
  exact ⟨.refl d, rfl, rfl⟩

/-- A row of a union has the values that a row of one branch exposes, the number of the branch, and
nulls elsewhere. -/
theorem Sound.exists_keeps_of_matched (h : u.Sound t index)
    (hrow : Source.Matched row (u.source index,
      Block.sourceRows S.domain S.db T (u.source index))) :
    ∃ (n : Nat) (e : Draft × List Variable) (inner : Row α), u.branches[n]? = some e ∧
      row index = some (S.domain.constant (toString n) .integer) ∧
      (e.1.toBlock e.2).Keeps S.domain S.db T inner ∧ (∀ v ∈ e.2, row v = inner v) ∧
      ∀ v ∈ u.vars, v ∉ e.2 → row v = none := by
  obtain ⟨r, hr, hmatch⟩ := hrow
  obtain ⟨n, block, hblock, exposed, hexposed, rfl⟩ := Block.mem_branchRows hr
  rw [List.getElem?_map, Option.map_eq_some_iff] at hblock
  obtain ⟨e, he, rfl⟩ := hblock
  obtain ⟨inner, hkeeps, rfl⟩ := Draft.exists_keeps_of_mem_rows hexposed
  have hbranch := h.branches e (List.mem_of_getElem? he)
  have hvar : ∀ v ∈ u.vars, row v = inner.restrict e.2 v := fun v hv =>
    (hmatch v (List.mem_cons_of_mem _ hv)).trans
      (Row.assign_of_ne (Nat.ne_of_gt (h.taken v hv).1))
  refine ⟨n, e, inner, he, ?_, hkeeps, fun v hv => ?_, fun v hv hnot => ?_⟩
  · rw [hmatch index List.mem_cons_self, Row.assign_self, Nat.zero_add]
  · exact (hvar v (hbranch.covered hv)).trans (Row.restrict_of_mem hv)
  · exact (hvar v hv).trans (Row.take_of_not_mem hnot)

/-- The output of a union tells the term of the branch that a row comes from. -/
theorem Outputs.tells {surveys : List Survey}
    (h : u.Outputs t index (surveys.map (·.draft))) (hsound : u.Sound t index)
    (hsurveys : ∀ r ∈ surveys, r.draft.Accounted S t (r.origin.account S.domain S.db))
    (hT : t <+: T)
    (hrow : Source.Matched row (u.source index,
      Block.sourceRows S.domain S.db T (u.source index))) {b : String × Binding}
    (hb : b ∈ u.bindings) (columns : ColumnIndex) : b.2.Tells S.domain columns row
      ((Survey.united index surveys u.branches).account S.domain S.db T row b.1) := by
  obtain ⟨n, e, inner, he, hindex, hkeeps, hexposed, hnull⟩ := hsound.exists_keeps_of_matched hrow
  obtain ⟨output, nullable, escaped, heq, hmem, hholds⟩ := h.bindings b hb
  have hbranch := hsound.branches e (List.mem_of_getElem? he)
  obtain ⟨d, hd, hcontinues⟩ := exists_getElem?_of_forall₂ h.branches he
  obtain ⟨d', hd', hholds⟩ := exists_getElem?_of_forall₂ hholds he
  obtain rfl : d = d' := Option.some_inj.mp (hd.symm.trans hd')
  have hshape : ((surveys.map (·.draft)).map fun d =>
      (d.bindings.lookup b.1).map Binding.shape)[n]? =
        some ((d.bindings.lookup b.1).map Binding.shape) := by
    rw [List.getElem?_map, hd]
    rfl
  rw [List.getElem?_map, Option.map_eq_some_iff] at hd
  obtain ⟨r, hr, rfl⟩ := hd
  rw [heq]
  intro x hx
  cases hx
  cases hlookup : r.draft.bindings.lookup b.1 with
  | none =>
    rw [hlookup] at hshape hholds
    cases hholds with
    | unbound _ hnot =>
      refine Shape.tells_of_null (exists_says_shape hindex hshape) (hnull output hmem ?_)
      exact fun hexposed => hnot (hbranch.exposed hexposed)
  | some binding =>
    rw [hlookup] at hshape hholds
    cases hholds with
    | bound hx hassigned houtput hindices =>
      rw [hcontinues.columns] at hx
      have hfits := (hbranch.sound.mono hT).fits_of_keeps hkeeps
      have htells := hsurveys r (List.mem_of_getElem? hr) _ (mem_of_lookup hlookup) T hT inner
        (hfits.inside hcontinues.inside) _ hx
      have hvalue : row output = _ := (hexposed output houtput).trans (hfits.assigned _ hassigned)
      obtain ⟨said, hsaid, htold⟩ := Draft.tells_of_exposed htells hindices hexposed hvalue
      refine ⟨said, says_shape hindex hshape hsaid, fun a ha => ?_⟩
      obtain ⟨k, hk, hak⟩ := htold a ha
      have hmember : (surveys.zipWith (fun r e => (r.origin, e.1.toBlock e.2)) u.branches)[n]? =
          some (r.origin, e.1.toBlock e.2) :=
        List.getElem?_zipWith_eq_some.mpr ⟨r, e, hr, he, rfl⟩
      refine ⟨k, hk, Origin.account_branches hmember ?_⟩
      rw [Nat.zero_add]
      exact ⟨hindex, inner, hkeeps, hexposed, hak⟩

/-- Binding the outputs of a union keeps an account of which the terms of its branches are part. -/
theorem Outputs.explains {d : Draft} {account : Account α} {surveys : List Survey}
    (h : u.Outputs t index (surveys.map (·.draft))) (hsound : u.Sound t index)
    (hd : d.Accounted S t account)
    (hsurveys : ∀ r ∈ surveys, r.draft.Accounted S t (r.origin.account S.domain S.db))
    (hunited : ∀ T row name a k, (Survey.united index surveys u.branches).account S.domain S.db T
      row name a k → account T row name a k) :
    (d.addSource (u.source index)).Explains S t account
      (Draft.bindAll (d.addSource (u.source index)) u.bindings) := by
  refine Draft.bindAll_explains (hd.addSource _) fun b hb T hT row hrow => ?_
  obtain hmatched | ⟨hon, -⟩ := hrow.sources (u.source index)
    (List.mem_append_right _ List.mem_cons_self)
  · exact (h.tells hsound hsurveys hT hmatched hb _).mono (hunited T row b.1)
  · cases hon

end UnionDraft

end VirtualGraph
