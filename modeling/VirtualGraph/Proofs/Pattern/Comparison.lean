import VirtualGraph.Pattern.Comparison

/-!
# Exactness of the comparison of patterns

A valuation gives every slot a text, and under it every pattern is one text. The comparison is
exact: two patterns have the same text exactly when they are not reported disjoint and every pair
that is left over has the same text on both sides.

What follows from an equality of texts is proved for two valuations, one for each side. In an IRI
the value of a column stands percent-encoded and elsewhere it stands as it is, so two terms may
fill the same slot in different ways. Only the converse needs one valuation for both sides, since
equal patterns are left out of the result.
-/

namespace VirtualGraph

/-- A text for every slot. -/
abbrev Valuation := Slot → String

namespace Valuation

/-- No slot holds a reserved character. -/
def IsEncoded (σ : Valuation) : Prop := ∀ s, ∀ c ∈ (σ s).toList, Pattern.isRunChar c = true

end Valuation

namespace Symbol

/-- The characters that a symbol stands for. -/
def text (σ : Valuation) : Symbol → List Char
  | char c => [c]
  | slot s => (σ s).toList

end Symbol

namespace Pattern

/-- The characters that a sequence of symbols stands for. -/
def textOf (σ : Valuation) (symbols : List Symbol) : List Char := symbols.flatMap (·.text σ)

/-- The text of a pattern. -/
def render (p : Pattern) (σ : Valuation) : String := String.ofList (textOf σ p.symbols)

variable {σ τ : Valuation} {l r l' r' : List Symbol}

@[simp] theorem textOf_nil : textOf σ [] = [] := rfl

@[simp] theorem textOf_cons (x : Symbol) (l : List Symbol) :
    textOf σ (x :: l) = x.text σ ++ textOf σ l := rfl

@[simp] theorem textOf_append (l r : List Symbol) :
    textOf σ (l ++ r) = textOf σ l ++ textOf σ r :=
  List.flatMap_append

@[simp] theorem textOf_chars (cs : List Char) : textOf σ (cs.map .char) = cs := by
  induction cs with
  | nil => rfl
  | cons c cs ih => simp [Symbol.text, ih]

theorem render_eq_iff {p q : Pattern} :
    p.render σ = q.render τ ↔ textOf σ p.symbols = textOf τ q.symbols :=
  String.ofList_inj

/-- A sequence without slots is its characters. -/
theorem eq_map_char_of_all_isChar (h : l.all Symbol.isChar = true) :
    l = (l.filterMap Symbol.char?).map .char := by
  induction l with
  | nil => rfl
  | cons x l ih =>
    simp only [List.all_cons, Bool.and_eq_true] at h
    cases x with
    | char c => simpa [Symbol.char?] using ih h.2
    | slot s => simp [Symbol.isChar] at h

/-- A character in a pattern is a character of its text. -/
theorem textOf_ne_nil_of_any_isChar (h : l.any Symbol.isChar = true) : textOf σ l ≠ [] := by
  obtain ⟨x, hx, hc⟩ := List.any_eq_true.mp h
  cases x with
  | slot s => simp [Symbol.isChar] at hc
  | char c =>
    obtain ⟨a, b, rfl⟩ := List.append_of_mem hx
    simp [Symbol.text]

/-! ### Equal characters at the two ends -/

theorem append_of_cancel (h : cancel l r = some (l', r')) :
    ∃ cs : List Char, l = cs.map .char ++ l' ∧ r = cs.map .char ++ r' := by
  fun_induction cancel l r with
  | case1 l a r ih =>
    obtain ⟨cs, hl, hr⟩ := ih h
    exact ⟨a :: cs, by simp [← hl], by simp [← hr]⟩
  | case2 => cases h
  | case3 l r _ =>
    cases h
    exact ⟨[], rfl, rfl⟩

/-- Cancelling fails only at two characters that differ. -/
theorem mismatch_of_cancel (h : cancel l r = none) :
    ∃ (cs : List Char) (a b : Char) (x y : List Symbol), a ≠ b ∧
      l = cs.map .char ++ .char a :: x ∧ r = cs.map .char ++ .char b :: y := by
  fun_induction cancel l r with
  | case1 l a r ih =>
    obtain ⟨cs, c, d, x, y, hne, hl, hr⟩ := ih h
    exact ⟨a :: cs, c, d, x, y, hne, by simp [← hl], by simp [← hr]⟩
  | case2 a l b r hne => exact ⟨[], a, b, l, r, hne, rfl, rfl⟩
  | case3 => cases h

theorem append_of_cancelEnd (h : cancelEnd l r = some (l', r')) :
    ∃ cs : List Char, l = l' ++ cs.map .char ∧ r = r' ++ cs.map .char := by
  simp only [cancelEnd, Option.map_eq_some_iff, Prod.exists, Prod.mk.injEq] at h
  obtain ⟨x, y, hc, rfl, rfl⟩ := h
  obtain ⟨cs, hl, hr⟩ := append_of_cancel hc
  refine ⟨cs.reverse, ?_, ?_⟩
  · rw [List.map_reverse, ← List.reverse_append, ← hl, List.reverse_reverse]
  · rw [List.map_reverse, ← List.reverse_append, ← hr, List.reverse_reverse]

theorem mismatch_of_cancelEnd (h : cancelEnd l r = none) :
    ∃ (cs : List Char) (a b : Char) (x y : List Symbol), a ≠ b ∧
      l = x ++ .char a :: cs.map .char ∧ r = y ++ .char b :: cs.map .char := by
  rw [cancelEnd, Option.map_eq_none_iff] at h
  obtain ⟨cs, a, b, x, y, hne, hl, hr⟩ := mismatch_of_cancel h
  refine ⟨cs.reverse, a, b, x.reverse, y.reverse, hne, ?_, ?_⟩
  · rw [← List.reverse_reverse l, hl]
    simp
  · rw [← List.reverse_reverse r, hr]
    simp

/-- Cancelled characters stand on both sides, so they decide nothing. -/
theorem textOf_eq_iff_of_cancelBoth (h : cancelBoth l r = some (l', r')) :
    textOf σ l = textOf τ r ↔ textOf σ l' = textOf τ r' := by
  obtain ⟨⟨x, y⟩, h₁, h₂⟩ := Option.bind_eq_some_iff.mp h
  obtain ⟨cs, rfl, rfl⟩ := append_of_cancel h₁
  obtain ⟨ds, rfl, rfl⟩ := append_of_cancelEnd h₂
  simp [← List.append_assoc]

theorem textOf_ne_of_cancelBoth (h : cancelBoth l r = none) : textOf σ l ≠ textOf τ r := by
  cases hc : cancel l r with
  | none =>
    obtain ⟨cs, a, b, x, y, hne, rfl, rfl⟩ := mismatch_of_cancel hc
    simp [Symbol.text, hne]
  | some m =>
    obtain ⟨cs, rfl, rfl⟩ := append_of_cancel hc
    have hend : cancelEnd m.1 m.2 = none := by simpa [cancelBoth, hc] using h
    obtain ⟨ds, a, b, x, y, hne, hl, hr⟩ := mismatch_of_cancelEnd hend
    intro heq
    rw [hl, hr] at heq
    simp only [textOf_append, textOf_chars, textOf_cons, Symbol.text, ← List.append_assoc,
      List.append_cancel_right_eq] at heq
    exact hne (by simpa using congrArg List.getLast? heq)

/-! ### Runs up to a reserved character -/

theorem textOf_run (hσ : σ.IsEncoded) (l : List Symbol) :
    textOf σ (run l) = (textOf σ l).takeWhile isRunChar := by
  induction l with
  | nil => rfl
  | cons x l ih =>
    cases x with
    | slot s =>
      have hs : run (.slot s :: l) = .slot s :: run l := List.takeWhile_cons_of_pos rfl
      rw [hs, textOf_cons, textOf_cons, Symbol.text, List.takeWhile_append_of_pos (hσ s), ih]
    | char c =>
      by_cases hc : isRunChar c = true
      · simpa [run, isRunSymbol, Symbol.text, hc] using ih
      · simp [run, isRunSymbol, Symbol.text, hc]

theorem textOf_afterRun (hσ : σ.IsEncoded) (l : List Symbol) :
    textOf σ (afterRun l) = (textOf σ l).dropWhile isRunChar := by
  have h := congrArg (textOf σ) (run_append_afterRun l)
  rw [textOf_append, textOf_run hσ] at h
  exact List.append_cancel_left (h.trans List.takeWhile_append_dropWhile.symm)

/-- A run ends with the sequence or at a character. -/
theorem afterRun_cases (l : List Symbol) :
    afterRun l = [] ∨ ∃ c x, afterRun l = .char c :: x := by
  have hnot := List.head?_dropWhile_not isRunSymbol l
  cases hl : l.dropWhile isRunSymbol with
  | nil => exact .inl hl
  | cons x rest =>
    rw [hl] at hnot
    cases x with
    | char c => exact .inr ⟨c, rest, hl⟩
    | slot s => simp [isRunSymbol] at hnot

theorem head?_afterRun_eq (h : textOf σ (afterRun l) = textOf τ (afterRun r)) :
    (afterRun l).head? = (afterRun r).head? := by
  rcases afterRun_cases l with hl | ⟨a, x, hl⟩ <;> rcases afterRun_cases r with hr | ⟨b, y, hr⟩ <;>
    rw [hl, hr] at h ⊢
  · simp [Symbol.text] at h
  · simp [Symbol.text] at h
  · obtain ⟨rfl, -⟩ : a = b ∧ _ := by simpa [Symbol.text] using h
    rfl

/-! ### Pairs that no step takes apart -/

/-- Every pair has one text, the left members under one valuation and the right ones under
another. -/
def Agree (σ τ : Valuation) (pairs : List (Pattern × Pattern)) : Prop :=
  ∀ p ∈ pairs, p.1.render σ = p.2.render τ

theorem settle_of_textOf_eq {p q : Pattern} (h : textOf σ p.symbols = textOf τ q.symbols) :
    ∃ pairs, settle p q = some pairs ∧ Agree σ τ pairs := by
  unfold settle
  split
  · rename_i hc
    obtain ⟨hp, hq⟩ := Bool.and_eq_true_iff.mp hc
    rw [eq_map_char_of_all_isChar hp, eq_map_char_of_all_isChar hq, textOf_chars, textOf_chars] at h
    exact ⟨[], if_pos h, by simp [Agree]⟩
  · split
    · rename_i hempty
      simp only [Bool.or_eq_true, Bool.and_eq_true, isEmpty, List.isEmpty_iff] at hempty
      rcases hempty with ⟨hp, hq⟩ | ⟨hq, hp⟩
      · exact absurd (by simpa [hp] using h.symm) (textOf_ne_nil_of_any_isChar (σ := τ) hq)
      · exact absurd (by simpa [hq] using h) (textOf_ne_nil_of_any_isChar (σ := σ) hp)
    · split
      · exact ⟨[], rfl, by simp [Agree]⟩
      · exact ⟨[(p, q)], rfl, by simpa [Agree] using render_eq_iff.mpr h⟩

theorem textOf_eq_of_settle {p q : Pattern} {pairs : List (Pattern × Pattern)}
    (hs : settle p q = some pairs) (h : Agree σ σ pairs) :
    textOf σ p.symbols = textOf σ q.symbols := by
  unfold settle at hs
  split at hs
  · rename_i hc
    obtain ⟨hp, hq⟩ := Bool.and_eq_true_iff.mp hc
    split at hs
    · rename_i heq
      rw [eq_map_char_of_all_isChar hp, eq_map_char_of_all_isChar hq]
      exact congrArg (fun cs => textOf σ (cs.map .char)) heq
    · cases hs
  · split at hs
    · cases hs
    · split at hs
      · rename_i heq
        rw [heq]
      · cases hs
        exact render_eq_iff.mp (h (p, q) (by simp))

@[simp] theorem agree_nil : Agree σ τ [] := by simp [Agree]

@[simp] theorem agree_append {ps qs : List (Pattern × Pattern)} :
    Agree σ τ (ps ++ qs) ↔ Agree σ τ ps ∧ Agree σ τ qs :=
  List.forall_mem_append

/-! ### The whole comparison -/

/-- Texts that are equal are never reported disjoint, and every pair that is left over has one text.
The two sides may fill their slots differently. -/
theorem reduce_of_textOf_eq (escapedL escapedR : Bool) (l r : List Symbol)
    (hσ : escapedL = true → escapedR = true → σ.IsEncoded ∧ τ.IsEncoded)
    (h : textOf σ l = textOf τ r) :
    ∃ pairs, reduce escapedL escapedR l r = some pairs ∧ Agree σ τ pairs := by
  fun_induction reduce escapedL escapedR l r with
  | case1 l r hc => exact absurd h (textOf_ne_of_cancelBoth hc)
  | case2 => exact ⟨[], rfl, agree_nil⟩
  | case3 l r l' r' hc _ hempty =>
    rw [textOf_eq_iff_of_cancelBoth hc] at h
    rcases hempty with ⟨rfl, ht⟩ | ⟨rfl, ht⟩
    · exact absurd h.symm (textOf_ne_nil_of_any_isChar ht)
    · exact absurd h (textOf_ne_nil_of_any_isChar ht)
  | case4 l r l' r' hc _ _ _ ih => exact ih ((textOf_eq_iff_of_cancelBoth hc).mp h)
  | case5 l r l' r' hc => exact settle_of_textOf_eq ((textOf_eq_iff_of_cancelBoth hc).mp h)
  | case6 l r l' r' hc _ _ _ hesc hne =>
    obtain ⟨hl, hr⟩ := Decidable.not_not.mp hesc
    obtain ⟨hσ, hτ⟩ := hσ hl hr
    rw [textOf_eq_iff_of_cancelBoth hc] at h
    exact absurd (head?_afterRun_eq (by rw [textOf_afterRun hσ, textOf_afterRun hτ, h])) hne
  | case7 l r l' r' hc => exact settle_of_textOf_eq ((textOf_eq_iff_of_cancelBoth hc).mp h)
  | case8 l r l' r' hc _ _ _ hesc _ _ ih =>
    obtain ⟨hl, hr⟩ := Decidable.not_not.mp hesc
    obtain ⟨hσ', hτ'⟩ := hσ hl hr
    rw [textOf_eq_iff_of_cancelBoth hc] at h
    -- no slot holds a reserved character, so the runs end at the same place of the common text
    have hrun : textOf σ (run l') = textOf τ (run r') := by
      rw [textOf_run hσ', textOf_run hτ', h]
    have hafter : textOf σ (afterRun l') = textOf τ (afterRun r') := by
      rw [textOf_afterRun hσ', textOf_afterRun hτ', h]
    obtain ⟨first, hfirst, hagree⟩ :=
      settle_of_textOf_eq (p := ⟨true, run l'⟩) (q := ⟨true, run r'⟩) hrun
    obtain ⟨rest, hrest, hagree'⟩ := ih hafter
    exact ⟨first ++ rest, by simp [hfirst, hrest], agree_append.mpr ⟨hagree, hagree'⟩⟩

/-- When every pair that is left over has one text, so have the two sides. -/
theorem textOf_eq_of_reduce (escapedL escapedR : Bool) (l r : List Symbol)
    {pairs : List (Pattern × Pattern)} (hr : reduce escapedL escapedR l r = some pairs)
    (h : Agree σ σ pairs) : textOf σ l = textOf σ r := by
  fun_induction reduce escapedL escapedR l r generalizing pairs with
  | case1 => cases hr
  | case2 l r l' r' hc hnil =>
    rw [textOf_eq_iff_of_cancelBoth hc, hnil.1, hnil.2]
  | case3 => cases hr
  | case4 l r l' r' hc _ _ _ ih => exact (textOf_eq_iff_of_cancelBoth hc).mpr (ih hr h)
  | case5 l r l' r' hc => exact (textOf_eq_iff_of_cancelBoth hc).mpr (textOf_eq_of_settle hr h)
  | case6 => cases hr
  | case7 l r l' r' hc => exact (textOf_eq_iff_of_cancelBoth hc).mpr (textOf_eq_of_settle hr h)
  | case8 l r l' r' hc _ _ _ _ _ _ ih =>
    obtain ⟨first, hfirst, hr⟩ := Option.bind_eq_some_iff.mp hr
    obtain ⟨rest, hrest, rfl⟩ := Option.map_eq_some_iff.mp hr
    obtain ⟨hagree, hagree'⟩ := agree_append.mp h
    have hrun : textOf σ (run l') = textOf σ (run r') := textOf_eq_of_settle hfirst hagree
    rw [textOf_eq_iff_of_cancelBoth hc, ← run_append_afterRun l', ← run_append_afterRun r',
      textOf_append, textOf_append, hrun, ih hrest hagree']

/-! ### What the pairs are made of -/

theorem subset_of_cancelBoth (h : cancelBoth l r = some (l', r')) : l' ⊆ l ∧ r' ⊆ r := by
  obtain ⟨⟨x, y⟩, h₁, h₂⟩ := Option.bind_eq_some_iff.mp h
  obtain ⟨cs, rfl, rfl⟩ := append_of_cancel h₁
  obtain ⟨ds, rfl, rfl⟩ := append_of_cancelEnd h₂
  constructor <;> intro z hz <;> simp [hz]

theorem mem_settle {pairs : List (Pattern × Pattern)} {pair : Pattern × Pattern}
    (h : settle p q = some pairs) (hpair : pair ∈ pairs) : pair = (p, q) := by
  unfold settle at h
  split at h
  · split at h <;> cases h
    exact absurd hpair List.not_mem_nil
  · split at h
    · cases h
    · split at h <;> cases h
      · exact absurd hpair List.not_mem_nil
      · exact List.mem_singleton.mp hpair

/-- The pairs of a comparison are made of symbols of its two sides. -/
theorem subset_of_reduce {escapedL escapedR : Bool} {pairs : List (Pattern × Pattern)}
    {pair : Pattern × Pattern} (h : reduce escapedL escapedR l r = some pairs)
    (hpair : pair ∈ pairs) : pair.1.symbols ⊆ l ∧ pair.2.symbols ⊆ r := by
  fun_induction reduce escapedL escapedR l r generalizing pairs with
  | case1 => cases h
  | case2 =>
    cases h
    exact absurd hpair List.not_mem_nil
  | case3 => cases h
  | case4 l r l' r' hc _ _ _ ih =>
    obtain ⟨hl, hr⟩ := subset_of_cancelBoth hc
    obtain ⟨hl', hr'⟩ := ih h hpair
    exact ⟨List.Subset.trans hl' hl, List.Subset.trans hr' hr⟩
  | case5 l r l' r' hc =>
    rw [mem_settle h hpair]
    exact subset_of_cancelBoth hc
  | case6 => cases h
  | case7 l r l' r' hc =>
    rw [mem_settle h hpair]
    exact subset_of_cancelBoth hc
  | case8 l r l' r' hc _ _ _ _ _ _ ih =>
    obtain ⟨hl, hr⟩ := subset_of_cancelBoth hc
    obtain ⟨first, hfirst, h⟩ := Option.bind_eq_some_iff.mp h
    obtain ⟨rest, hrest, rfl⟩ := Option.map_eq_some_iff.mp h
    obtain hpair | hpair := List.mem_append.mp hpair
    · rw [mem_settle hfirst hpair]
      exact ⟨List.Subset.trans (List.takeWhile_subset _) hl,
        List.Subset.trans (List.takeWhile_subset _) hr⟩
    · obtain ⟨hl', hr'⟩ := ih hrest hpair
      exact ⟨List.Subset.trans (List.Subset.trans hl' (List.dropWhile_subset _)) hl,
        List.Subset.trans (List.Subset.trans hr' (List.dropWhile_subset _)) hr⟩

/-! ### The comparison of patterns -/

/-- Patterns that are reported disjoint have no text in common, however each of them is filled. -/
theorem render_ne_of_neverMatch {p q : Pattern}
    (hσ : p.escaped = true → q.escaped = true → σ.IsEncoded ∧ τ.IsEncoded)
    (h : (p.compare q).neverMatch = true) : p.render σ ≠ q.render τ := by
  intro heq
  obtain ⟨pairs, hpairs, -⟩ :=
    reduce_of_textOf_eq p.escaped q.escaped p.symbols q.symbols hσ (render_eq_iff.mp heq)
  simp [compare, hpairs, Comparison.neverMatch] at h

theorem render_eq_of_residuals {p q : Pattern} (h : (p.compare q).neverMatch = false)
    (hres : Agree σ σ (p.compare q).residuals) : p.render σ = q.render σ := by
  unfold compare at h hres
  split at h
  · cases h
  · rename_i pairs hpairs
    rw [hpairs] at hres
    exact render_eq_iff.mpr (textOf_eq_of_reduce _ _ _ _ hpairs hres)

/-- The comparison is exact: two patterns have one text exactly when they are not reported disjoint
and each pair that is left over has one text. Disjoint patterns differ under the valuation, and a
comparison that leaves nothing over holds under every valuation. -/
theorem compare_exact (p q : Pattern) (σ : Valuation)
    (hσ : p.escaped = true → q.escaped = true → σ.IsEncoded) :
    (p.render σ = q.render σ ↔
      (p.compare q).neverMatch = false ∧
        ∀ pair ∈ (p.compare q).residuals, pair.1.render σ = pair.2.render σ) ∧
    ((p.compare q).neverMatch = true → p.render σ ≠ q.render σ) ∧
    ((p.compare q).alwaysMatch = true → ∀ τ : Valuation, p.render τ = q.render τ) := by
  have henc : p.escaped = true → q.escaped = true → σ.IsEncoded ∧ σ.IsEncoded :=
    fun hp hq => ⟨hσ hp hq, hσ hp hq⟩
  refine ⟨⟨?_, ?_⟩, render_ne_of_neverMatch henc, ?_⟩
  · intro heq
    obtain ⟨pairs, hpairs, hagree⟩ :=
      reduce_of_textOf_eq p.escaped q.escaped p.symbols q.symbols henc (render_eq_iff.mp heq)
    rw [compare, hpairs]
    exact ⟨rfl, hagree⟩
  · rintro ⟨hnever, hres⟩
    exact render_eq_of_residuals hnever hres
  · intro halways τ
    cases hc : p.compare q with
    | disjoint =>
      rw [hc] at halways
      cases halways
    | residual pairs =>
      rw [hc] at halways
      obtain rfl : pairs = [] := List.isEmpty_iff.mp halways
      exact render_eq_of_residuals (by rw [hc]; rfl) (by rw [hc]; exact agree_nil)

/-- Two escaped patterns of two segments each, with all segments filled alike. -/
theorem compare_exact_segments :
    Valuation.IsEncoded (fun _ => "7") ∧
    ((⟨true, [.slot ⟨0, "a", .string⟩, .char '/', .slot ⟨0, "b", .string⟩]⟩ : Pattern).compare
      ⟨true, [.slot ⟨1, "c", .string⟩, .char '/',
        .slot ⟨1, "d", .string⟩]⟩).neverMatch = false := by
  have henc : Valuation.IsEncoded (fun _ => "7") := by
    intro s c hc
    obtain rfl : c = '7' := by simpa using hc
    decide
  refine ⟨henc, And.left ((compare_exact _ _ (fun _ => "7") (fun _ _ => henc)).1.mp ?_)⟩
  rfl

end Pattern

end VirtualGraph
