import Mathlib.Data.List.TakeWhile
import VirtualGraph.Proofs.Pattern.Comparison
import VirtualGraph.Proofs.Text.Spelling

/-!
# Constants compared with patterns

A comparison does not depend on which side stands first. Against a constant it keeps every slot of
the other side in some pair, and leaves no pair of two constants.

When the constant is the spelling of a text, the pairs have the same texts after decoding exactly
when the constant spells the text that the pattern has with its values as they are. Values then have
no separator, so none of the cuts of the comparison goes through one; but the end of the pattern may
cut off part of an escape, and what is left of it equals no value.
-/

namespace VirtualGraph

namespace Pattern

variable {l r l' r' : List Symbol} {escapedL escapedR : Bool} {pairs : List (Pattern × Pattern)}

/-! ### The two sides change places -/

theorem cancel_comm (l r : List Symbol) : cancel r l = (cancel l r).map Prod.swap := by
  fun_induction cancel l r with
  | case1 l a r ih => rw [cancel, if_pos rfl, ih]
  | case2 a l b r hne =>
    rw [cancel, if_neg (Ne.symm hne)]
    rfl
  | case3 l r hother =>
    rw [cancel]
    · rfl
    · exact fun a l' b r' hl hr => hother b r' a l' hr hl

theorem cancelEnd_comm (l r : List Symbol) : cancelEnd r l = (cancelEnd l r).map Prod.swap := by
  rw [cancelEnd, cancelEnd, cancel_comm, Option.map_map, Option.map_map]
  rfl

theorem cancelBoth_comm (l r : List Symbol) : cancelBoth r l = (cancelBoth l r).map Prod.swap := by
  rw [cancelBoth, cancelBoth, cancel_comm, Option.map_bind, Option.bind_map]
  exact congrArg _ (funext fun m => cancelEnd_comm m.1 m.2)

theorem settle_comm (p q : Pattern) : settle q p = (settle p q).map (List.map Prod.swap) := by
  unfold settle
  rw [Bool.and_comm, Bool.or_comm]
  simp only [eq_comm (a := q.chars), eq_comm (a := q)]
  split
  · split <;> rfl
  · split
    · rfl
    · split <;> rfl

/-- The steps of a comparison, one after the other. -/
theorem reduce_eq (escapedL escapedR : Bool) (l r : List Symbol) :
    reduce escapedL escapedR l r = (cancelBoth l r).bind fun (l', r') =>
      if l' = [] ∧ r' = [] then some []
      else if (l' = [] ∧ r'.any Symbol.isChar) ∨ (r' = [] ∧ l'.any Symbol.isChar) then none
      else if l'.length + r'.length < l.length + r.length then reduce escapedL escapedR l' r'
      else if ¬(escapedL ∧ escapedR) then settle ⟨escapedL, l'⟩ ⟨escapedR, r'⟩
      else if (afterRun l').head? ≠ (afterRun r').head? then none
      else if run l' = [] ∧ run r' = [] then settle ⟨escapedL, l'⟩ ⟨escapedR, r'⟩
      else
        (settle ⟨true, run l'⟩ ⟨true, run r'⟩).bind fun first =>
          (reduce escapedL escapedR (afterRun l') (afterRun r')).map (first ++ ·) := by
  rw [reduce]
  split <;> rename_i h <;> rw [h] <;> rfl

theorem reduce_comm (escapedL escapedR : Bool) (l r : List Symbol) :
    reduce escapedR escapedL r l = (reduce escapedL escapedR l r).map (List.map Prod.swap) := by
  fun_induction reduce escapedL escapedR l r with
  | case1 l r hc => rw [reduce_eq, cancelBoth_comm, hc]; rfl
  | case2 l r l' r' hc hnil =>
    rw [reduce_eq, cancelBoth_comm, hc]
    simp [hnil]
  | case3 l r l' r' hc hnil hempty =>
    rw [reduce_eq, cancelBoth_comm, hc]
    simp only [Option.map_some, Option.bind_some, Prod.swap_prod_mk]
    rw [if_neg (mt And.symm hnil), if_pos hempty.symm]
    rfl
  | case4 l r l' r' hc hnil hempty hlt ih =>
    rw [reduce_eq, cancelBoth_comm, hc]
    simp only [Option.map_some, Option.bind_some, Prod.swap_prod_mk]
    rw [if_neg (mt And.symm hnil), if_neg (mt Or.symm hempty), if_pos (by omega), ih]
  | case5 l r l' r' hc hnil hempty hlt hescaped =>
    rw [reduce_eq, cancelBoth_comm, hc]
    simp only [Option.map_some, Option.bind_some, Prod.swap_prod_mk]
    rw [if_neg (mt And.symm hnil), if_neg (mt Or.symm hempty), if_neg (by omega),
      if_pos (mt And.symm hescaped), settle_comm]
  | case6 l r l' r' hc hnil hempty hlt hescaped hhead =>
    rw [reduce_eq, cancelBoth_comm, hc]
    simp only [Option.map_some, Option.bind_some, Prod.swap_prod_mk]
    rw [if_neg (mt And.symm hnil), if_neg (mt Or.symm hempty), if_neg (by omega),
      if_neg (mt (mt And.symm) hescaped), if_pos (Ne.symm hhead)]
    rfl
  | case7 l r l' r' hc hnil hempty hlt hescaped hhead hrun =>
    rw [reduce_eq, cancelBoth_comm, hc]
    simp only [Option.map_some, Option.bind_some, Prod.swap_prod_mk]
    rw [if_neg (mt And.symm hnil), if_neg (mt Or.symm hempty), if_neg (by omega),
      if_neg (mt (mt And.symm) hescaped), if_neg (mt Ne.symm hhead), if_pos hrun.symm, settle_comm]
  | case8 l r l' r' hc hnil hempty hlt hescaped hhead hrun ih =>
    rw [reduce_eq, cancelBoth_comm, hc]
    simp only [Option.map_some, Option.bind_some, Prod.swap_prod_mk]
    rw [if_neg (mt And.symm hnil), if_neg (mt Or.symm hempty), if_neg (by omega),
      if_neg (mt (mt And.symm) hescaped), if_neg (mt Ne.symm hhead), if_neg (mt And.symm hrun),
      settle_comm, ih, Option.bind_map]
    cases settle ⟨true, run l'⟩ ⟨true, run r'⟩ with
    | none => rfl
    | some first =>
      simp only [Option.bind_some, Option.map_map]
      refine congrArg (fun f => Option.map f _) (funext fun rest => ?_)
      simp

/-! ### What a comparison keeps -/

theorem exists_of_cancelBoth (h : cancelBoth l r = some (l', r')) :
    ∃ pre post : List Char, l = pre.map .char ++ l' ++ post.map .char ∧
      r = pre.map .char ++ r' ++ post.map .char := by
  obtain ⟨⟨x, y⟩, h₁, h₂⟩ := Option.bind_eq_some_iff.mp h
  obtain ⟨pre, rfl, rfl⟩ := append_of_cancel h₁
  obtain ⟨post, rfl, rfl⟩ := append_of_cancelEnd h₂
  exact ⟨pre, post, by simp, by simp⟩

theorem isConstant_of_settle {p q : Pattern} {pair : Pattern × Pattern}
    (h : settle p q = some pairs) (hpair : pair ∈ pairs) :
    (pair.1.isConstant && pair.2.isConstant) = false := by
  have heq := mem_settle h hpair
  subst heq
  unfold settle at h
  split at h
  · split at h
    · cases h
      exact absurd hpair List.not_mem_nil
    · cases h
  · rename_i hconstant
    exact Bool.eq_false_iff.mpr hconstant

/-- The pairs that are left over are escaped as the two sides are, and none has two constants. -/
theorem of_mem_reduce {pair : Pattern × Pattern}
    (h : reduce escapedL escapedR l r = some pairs) (hpair : pair ∈ pairs) :
    (pair.1.escaped = escapedL ∧ pair.2.escaped = escapedR) ∧
      (pair.1.isConstant && pair.2.isConstant) = false := by
  have hsettle : ∀ {l r : List Symbol} {pairs : List (Pattern × Pattern)},
      settle ⟨escapedL, l⟩ ⟨escapedR, r⟩ = some pairs → pair ∈ pairs →
        (pair.1.escaped = escapedL ∧ pair.2.escaped = escapedR) ∧
          (pair.1.isConstant && pair.2.isConstant) = false := by
    intro l r pairs h hpair
    refine ⟨?_, isConstant_of_settle h hpair⟩
    rw [mem_settle h hpair]
    exact ⟨rfl, rfl⟩
  fun_induction reduce escapedL escapedR l r generalizing pairs with
  | case1 => cases h
  | case2 =>
    cases h
    exact absurd hpair List.not_mem_nil
  | case3 => cases h
  | case4 l r l' r' hc _ _ _ ih => exact ih h hpair
  | case5 => exact hsettle h hpair
  | case6 => cases h
  | case7 => exact hsettle h hpair
  | case8 l r l' r' hc _ _ _ hescaped _ _ ih =>
    obtain ⟨rfl, rfl⟩ : escapedL = true ∧ escapedR = true := Decidable.not_not.mp hescaped
    obtain ⟨first, hfirst, h⟩ := Option.bind_eq_some_iff.mp h
    obtain ⟨rest, hrest, rfl⟩ := Option.map_eq_some_iff.mp h
    obtain hpair | hpair := List.mem_append.mp hpair
    · exact hsettle hfirst hpair
    · exact ih hrest hpair

theorem slot_mem_of_settle {p q : Pattern} {s : Slot} (h : settle p q = some pairs)
    (hp : p.isConstant = true) (hs : .slot s ∈ q.symbols) : (p, q) ∈ pairs := by
  have hq : q.isConstant = false := by
    refine Bool.eq_false_iff.mpr fun hq => ?_
    have := List.all_eq_true.mp hq _ hs
    exact Bool.false_ne_true this
  have hne : p ≠ q := fun heq => by simp [heq, hq] at hp
  unfold settle at h
  rw [hp, hq, Bool.and_false, if_neg Bool.false_ne_true] at h
  split at h
  · cases h
  · cases h
    exact List.mem_cons_self

/-- Compared with a constant, every slot is in a pair that is left over. -/
theorem slot_mem_of_reduce {s : Slot} (hl : l.all Symbol.isChar = true)
    (h : reduce escapedL escapedR l r = some pairs) (hs : .slot s ∈ r) :
    ∃ pair ∈ pairs, .slot s ∈ pair.2.symbols := by
  have hsub : ∀ {l r l' r' : List Symbol}, cancelBoth l r = some (l', r') →
      l.all Symbol.isChar = true → .slot s ∈ r → l'.all Symbol.isChar = true ∧ .slot s ∈ r' := by
    intro l r l' r' hc hl hs
    obtain ⟨pre, post, rfl, rfl⟩ := exists_of_cancelBoth hc
    rw [List.all_append, List.all_append, Bool.and_eq_true, Bool.and_eq_true] at hl
    exact ⟨hl.1.2, by simpa using hs⟩
  fun_induction reduce escapedL escapedR l r generalizing pairs with
  | case1 => cases h
  | case2 l r l' r' hc hnil =>
    obtain ⟨-, hs⟩ := hsub hc hl hs
    exact absurd (hnil.2 ▸ hs) List.not_mem_nil
  | case3 => cases h
  | case4 l r l' r' hc _ _ _ ih =>
    obtain ⟨hl, hs⟩ := hsub hc hl hs
    exact ih hl h hs
  | case5 l r l' r' hc =>
    obtain ⟨hl, hs⟩ := hsub hc hl hs
    exact ⟨_, slot_mem_of_settle h hl hs, hs⟩
  | case6 => cases h
  | case7 l r l' r' hc =>
    obtain ⟨hl, hs⟩ := hsub hc hl hs
    exact ⟨_, slot_mem_of_settle h hl hs, hs⟩
  | case8 l r l' r' hc _ _ _ _ _ _ ih =>
    obtain ⟨hl, hs⟩ := hsub hc hl hs
    obtain ⟨first, hfirst, h⟩ := Option.bind_eq_some_iff.mp h
    obtain ⟨rest, hrest, rfl⟩ := Option.map_eq_some_iff.mp h
    rw [← run_append_afterRun l', List.all_append, Bool.and_eq_true] at hl
    rw [← run_append_afterRun r', List.mem_append] at hs
    obtain hs | hs := hs
    · exact ⟨_, List.mem_append_left _ (slot_mem_of_settle hfirst hl.1 hs), hs⟩
    · obtain ⟨pair, hpair, hs⟩ := ih hl.2 hrest hs
      exact ⟨pair, List.mem_append_right _ hpair, hs⟩

/-! ### Constants that are spelled -/

open Text (Separators decodeChars)

variable {S : Separators} {σ : Valuation} {cs : List Char}

/-- The characters of symbols are plain, and the values between them have no separator and no
percent sign. -/
structure Separated (S : Separators) (σ : Valuation) (l : List Symbol) : Prop where
  chars : ∀ c, .char c ∈ l → S.plain c = true
  values : ∀ s, .slot s ∈ l → ∀ c ∈ (σ s).toList, c ≠ '%' ∧ S.holds c = false

theorem Separated.of_subset (h : Separated S σ r) (hsub : r' ⊆ r) : Separated S σ r' :=
  ⟨fun c hc => h.chars c (hsub hc), fun s hs => h.values s (hsub hs)⟩

theorem Separated.not_mem_percent (h : Separated S σ r) : '%' ∉ textOf σ r := by
  intro hmem
  obtain ⟨x, hx, hc⟩ := List.mem_flatMap.mp hmem
  cases x with
  | char c =>
    obtain rfl := List.mem_singleton.mp hc
    exact Separators.ne_percent (h.chars _ hx) rfl
  | slot s => exact (h.values s hx _ hc).1 rfl

/-- A run of symbols has no separator but those that may stand in a value. -/
theorem Separated.run_chars (h : Separated S σ r) :
    ∀ c ∈ textOf σ (run r), isRunChar c = true ∨ S.holds c = false := by
  intro c hmem
  obtain ⟨x, hx, hc⟩ := List.mem_flatMap.mp hmem
  cases x with
  | char d =>
    obtain rfl := List.mem_singleton.mp hc
    have hrun : isRunSymbol (.char c) = true := List.mem_takeWhile_imp hx
    exact .inl hrun
  | slot s => exact .inr (h.values s (List.takeWhile_subset _ hx) c hc).2

/-- The texts of a pair are the same after the left one is decoded. -/
def Decodes (σ : Valuation) (pairs : List (Pattern × Pattern)) : Prop :=
  ∀ pair ∈ pairs, decodeChars pair.1.chars = textOf σ pair.2.symbols

theorem chars_map (escaped : Bool) (cs : List Char) : chars ⟨escaped, cs.map .char⟩ = cs := by
  rw [chars, List.filterMap_map]
  exact List.filterMap_some

theorem isConstant_map (escaped : Bool) (cs : List Char) :
    isConstant ⟨escaped, cs.map .char⟩ = true := by
  rw [isConstant, List.all_map]
  exact List.all_eq_true.mpr fun _ _ => rfl

theorem run_map (cs : List Char) : run (cs.map .char) = (cs.takeWhile isRunChar).map .char := by
  rw [run, List.takeWhile_map]
  rfl

theorem afterRun_map (cs : List Char) :
    afterRun (cs.map .char) = (cs.dropWhile isRunChar).map .char := by
  rw [afterRun, List.dropWhile_map]
  rfl

theorem map_char_injective : Function.Injective (List.map Symbol.char) :=
  List.map_injective_iff.mpr fun _ _ h => Symbol.char.inj h

/-- Cancelling characters at the ends of a constant leaves a part of it. -/
theorem exists_of_cancelBoth_map (h : cancelBoth (cs.map .char) r = some (l', r')) :
    ∃ pre mid post : List Char, cs = pre ++ mid ++ post ∧ l' = mid.map .char ∧
      r = pre.map .char ++ r' ++ post.map .char := by
  obtain ⟨pre, post, hl, hr⟩ := exists_of_cancelBoth h
  obtain ⟨front, post', rfl, hfront, hpost⟩ := List.map_eq_append_iff.mp hl
  obtain ⟨pre', mid, rfl, hpre, hmid⟩ := List.map_eq_append_iff.mp hfront
  rw [← map_char_injective hpre, ← map_char_injective hpost] at hr
  exact ⟨pre', mid, post', rfl, hmid.symm, hr⟩

theorem textOf_of_isConstant {q : Pattern} (h : q.isConstant = true) :
    textOf σ q.symbols = q.chars := by
  rw [eq_map_char_of_all_isChar h, textOf_chars]
  rfl

theorem Separated.plain_chars {q : Pattern} (h : Separated S σ q.symbols) : S.Plain q.chars := by
  intro c hc
  obtain ⟨x, hx, hxc⟩ := List.mem_filterMap.mp hc
  cases x with
  | char d =>
    cases hxc
    exact h.chars c hx
  | slot s => cases hxc

/-- The constant spells the text of a pattern as soon as their pairs decode. -/
theorem spells_of_settle {q : Pattern} (hq : Separated S σ q.symbols) (hcs : S.Begins cs)
    (h : settle ⟨true, cs.map .char⟩ q = some pairs) (hpairs : Decodes σ pairs) :
    S.Spells cs (textOf σ q.symbols) := by
  by_cases hconstant : q.isConstant = true
  · have heq : cs = q.chars := by
      rw [settle, isConstant_map, hconstant, Bool.and_self, if_pos rfl, chars_map] at h
      split at h
      · assumption
      · cases h
    rw [textOf_of_isConstant hconstant, heq]
    exact Separators.spells_of_plain hq.plain_chars
  · obtain ⟨x, hx, hslot⟩ : ∃ x ∈ q.symbols, x.isChar ≠ true := by
      simpa [isConstant] using hconstant
    cases x with
    | char c => exact absurd rfl hslot
    | slot s =>
      have hpair := hpairs _ (slot_mem_of_settle h (isConstant_map true cs) hx)
      rw [chars_map] at hpair
      rw [← hpair]
      exact hcs.spells (hpair ▸ hq.not_mem_percent)

theorem settle_of_spells {q : Pattern} (hq : Separated S σ q.symbols)
    (h : S.Spells cs (textOf σ q.symbols)) :
    ∃ pairs, settle ⟨true, cs.map .char⟩ q = some pairs ∧ Decodes σ pairs := by
  unfold settle
  split
  · rename_i hc
    rw [textOf_of_isConstant (Bool.and_eq_true_iff.mp hc).2] at h
    refine ⟨[], if_pos ?_, fun _ hpair => absurd hpair List.not_mem_nil⟩
    rw [chars_map, h.eq_of_plain hq.plain_chars]
  · split
    · rename_i hempty
      simp only [Bool.or_eq_true, Bool.and_eq_true, isEmpty, List.isEmpty_iff,
        List.map_eq_nil_iff] at hempty
      rcases hempty with ⟨rfl, htext⟩ | ⟨hnil, htext⟩
      · have hne := textOf_ne_nil_of_any_isChar (σ := σ) htext
        generalize textOf σ q.symbols = u at h hne
        cases h
        exact absurd rfl hne
      · rw [hnil] at h
        cases h
        exact absurd htext Bool.false_ne_true
    · split
      · exact ⟨[], rfl, fun _ hpair => absurd hpair List.not_mem_nil⟩
      · refine ⟨_, rfl, fun pair hpair => ?_⟩
        obtain rfl := List.mem_singleton.mp hpair
        rw [chars_map]
        exact h.decodeChars

section Cancelled

variable {pre mid post : List Char}

theorem Separated.plain_of_cancelled (h : Separated S σ r)
    (hr : r = pre.map .char ++ r' ++ post.map .char) : S.Plain pre ∧ S.Plain post := by
  subst hr
  refine ⟨fun c hc => h.chars c ?_, fun c hc => h.chars c ?_⟩
  · exact List.mem_append_left _ (List.mem_append_left _ (List.mem_map_of_mem hc))
  · exact List.mem_append_right _ (List.mem_map_of_mem hc)

theorem Separated.of_cancelled (h : Separated S σ r)
    (hr : r = pre.map .char ++ r' ++ post.map .char) : Separated S σ r' :=
  h.of_subset fun _ hx => hr ▸ List.mem_append_left _ (List.mem_append_right _ hx)

theorem textOf_of_cancelled (hr : r = pre.map .char ++ r' ++ post.map .char) :
    textOf σ r = pre ++ textOf σ r' ++ post := by
  rw [hr, textOf_append, textOf_append, textOf_chars, textOf_chars]

/-- Plain characters at the ends of a text are at the ends of its spelling. -/
theorem exists_of_spells (h : Separated S σ r) (hr : r = pre.map .char ++ r' ++ post.map .char)
    (hspells : S.Spells cs (textOf σ r)) :
    ∃ mid, cs = pre ++ mid ++ post ∧ S.Spells mid (textOf σ r') := by
  obtain ⟨hpre, hpost⟩ := h.plain_of_cancelled hr
  rw [textOf_of_cancelled hr] at hspells
  obtain ⟨front, post', rfl, hfront, hpost'⟩ := hspells.split
  obtain ⟨pre', mid, rfl, hpre', hmid⟩ := hfront.split
  rw [hpre'.eq_of_plain hpre, hpost'.eq_of_plain hpost]
  exact ⟨mid, rfl, hmid⟩

theorem spells_of_cancelled (h : Separated S σ r) (hr : r = pre.map .char ++ r' ++ post.map .char)
    (hmid : S.Spells mid (textOf σ r')) : S.Spells (pre ++ mid ++ post) (textOf σ r) := by
  obtain ⟨hpre, hpost⟩ := h.plain_of_cancelled hr
  rw [textOf_of_cancelled hr]
  exact ((Separators.spells_of_plain hpre).append hmid).append (Separators.spells_of_plain hpost)

end Cancelled

/-- The characters at the ends of a spelling are those of the symbols there. -/
theorem exists_cancelBoth_of_spells (h : Separated S σ r) (hspells : S.Spells cs (textOf σ r)) :
    cancelBoth (cs.map .char) r ≠ none := by
  intro hnone
  cases hc : cancel (cs.map .char) r with
  | none =>
    obtain ⟨pre, a, b, x, y, hne, hl, hr⟩ := mismatch_of_cancel hc
    have hcut : r = (pre ++ [b]).map .char ++ y ++ List.map .char [] := by simpa using hr
    obtain ⟨mid, rfl, -⟩ := exists_of_spells h hcut hspells
    simp only [List.map_append, List.map_cons, List.map_nil, List.append_assoc,
      List.append_cancel_left_eq, List.cons_append, List.cons.injEq, Symbol.char.injEq] at hl
    exact hne hl.1.symm
  | some m =>
    obtain ⟨pre, hl, hr⟩ := append_of_cancel hc
    have hend : cancelEnd m.1 m.2 = none := by simpa [cancelBoth, hc] using hnone
    obtain ⟨post, a, b, x, y, hne, hl', hr'⟩ := mismatch_of_cancelEnd hend
    have hcut : r = pre.map .char ++ y ++ (b :: post).map .char := by
      rw [hr, hr', List.append_assoc]
      rfl
    obtain ⟨mid, rfl, -⟩ := exists_of_spells h hcut hspells
    rw [hl', List.map_append, ← List.append_assoc] at hl
    have hlast := List.append_inj_right' hl (by simp)
    exact hne (Symbol.char.inj (List.cons.inj hlast).1).symm

/-- A spelling of the text of symbols breaks up where their first run ends. -/
theorem spells_run (h : Separated S σ r) (hspells : S.Spells cs (textOf σ r)) :
    S.Spells (cs.takeWhile isRunChar) (textOf σ (run r)) ∧
      S.Spells (cs.dropWhile isRunChar) (textOf σ (afterRun r)) := by
  rw [← run_append_afterRun r, textOf_append] at hspells
  obtain ⟨front, back, rfl, hfront, hback⟩ := hspells.split
  have hrun : ∀ c ∈ front, isRunChar c = true := hfront.isRunChar h.run_chars
  have hstop : back.takeWhile isRunChar = [] ∧ back.dropWhile isRunChar = back := by
    obtain hnil | ⟨c, x, hx⟩ := afterRun_cases r
    · rw [hnil] at hback
      cases hback
      exact ⟨rfl, rfl⟩
    · have hmem : .char c ∈ afterRun r := hx ▸ List.mem_cons_self
      have hplain := h.chars c (List.dropWhile_subset _ hmem)
      have hreserved : isRunChar c ≠ true := by
        have hnot := List.head?_dropWhile_not isRunSymbol r
        rw [show r.dropWhile isRunSymbol = .char c :: x from hx] at hnot
        simpa [isRunSymbol] using hnot
      obtain ⟨first, rest, rfl, hfirst, -⟩ :=
        Separators.Spells.split (u := [c]) (v := textOf σ x) (by rwa [hx] at hback)
      have hone : first = [c] := hfirst.eq_of_plain (List.forall_mem_singleton.mpr hplain)
      subst hone
      exact ⟨List.takeWhile_cons_of_neg hreserved, List.dropWhile_cons_of_neg hreserved⟩
  rw [List.takeWhile_append_of_pos hrun, List.dropWhile_append_of_pos hrun, hstop.1, hstop.2,
    List.append_nil]
  exact ⟨hfront, hback⟩

theorem spells_cancelBoth (hr : Separated S σ r)
    (hc : cancelBoth (cs.map .char) r = some (l', r')) (h : S.Spells cs (textOf σ r)) :
    ∃ mid, l' = mid.map .char ∧ Separated S σ r' ∧ S.Spells mid (textOf σ r') := by
  obtain ⟨pre, mid, post, rfl, rfl, hcut⟩ := exists_of_cancelBoth_map hc
  obtain ⟨mid', heq, hmid⟩ := exists_of_spells hr hcut h
  rw [← List.append_cancel_left (List.append_cancel_right heq)] at hmid
  exact ⟨mid, rfl, hr.of_cancelled hcut, hmid⟩

theorem Separated.run (h : Separated S σ r) : Separated S σ (run r) :=
  h.of_subset (List.takeWhile_subset _)

theorem Separated.afterRun (h : Separated S σ r) : Separated S σ (afterRun r) :=
  h.of_subset (List.dropWhile_subset _)

theorem head?_afterRun_of_spells (hr : Separated S σ r) (h : S.Spells cs (textOf σ r)) :
    (Pattern.afterRun (cs.map .char)).head? = (Pattern.afterRun r).head? := by
  have hafter := (spells_run hr h).2
  rw [afterRun_map]
  obtain hnil | ⟨c, x, hx⟩ := afterRun_cases r
  · rw [hnil] at hafter ⊢
    generalize cs.dropWhile isRunChar = back at hafter ⊢
    cases hafter
    rfl
  · have hcut : Pattern.afterRun r = [c].map .char ++ x ++ [].map .char := by simp [hx]
    obtain ⟨mid, heq, -⟩ := exists_of_spells hr.afterRun hcut hafter
    rw [heq, hx]
    rfl

/-- Compared with a spelling of its text, a pattern leaves pairs that decode. -/
theorem reduce_of_spells (hL : escapedL = true) (hR : escapedR = true) (hl : l = cs.map .char)
    (hr : Separated S σ r) (h : S.Spells cs (textOf σ r)) :
    ∃ pairs, reduce escapedL escapedR l r = some pairs ∧ Decodes σ pairs := by
  fun_induction reduce escapedL escapedR l r generalizing cs with
  | case1 l r hc => exact absurd (hl ▸ hc) (exists_cancelBoth_of_spells hr h)
  | case2 => exact ⟨[], rfl, fun _ hpair => absurd hpair List.not_mem_nil⟩
  | case3 l r l' r' hc _ hempty =>
    obtain ⟨mid, rfl, -, h⟩ := spells_cancelBoth hr (hl ▸ hc) h
    rcases hempty with ⟨hnil, htext⟩ | ⟨rfl, htext⟩
    · rw [List.map_eq_nil_iff.mp hnil] at h
      have hne := textOf_ne_nil_of_any_isChar (σ := σ) htext
      generalize textOf σ r' = u at h hne
      cases h
      exact absurd rfl hne
    · cases h
      exact absurd htext Bool.false_ne_true
  | case4 l r l' r' hc _ _ _ ih =>
    obtain ⟨mid, hmid, hr', h⟩ := spells_cancelBoth hr (hl ▸ hc) h
    exact ih hmid hr' h
  | case5 l r l' r' hc _ _ _ hescaped => exact absurd ⟨hL, hR⟩ hescaped
  | case6 l r l' r' hc _ _ _ _ hne =>
    obtain ⟨mid, rfl, hr', h⟩ := spells_cancelBoth hr (hl ▸ hc) h
    exact absurd (head?_afterRun_of_spells hr' h) hne
  | case7 l r l' r' hc =>
    obtain ⟨mid, rfl, hr', h⟩ := spells_cancelBoth hr (hl ▸ hc) h
    rw [hL]
    exact settle_of_spells hr' h
  | case8 l r l' r' hc _ _ _ _ _ _ ih =>
    obtain ⟨mid, rfl, hr', h⟩ := spells_cancelBoth hr (hl ▸ hc) h
    obtain ⟨hrun, hafter⟩ := spells_run hr' h
    obtain ⟨first, hfirst, hdecodes⟩ := settle_of_spells (q := ⟨true, Pattern.run r'⟩) hr'.run hrun
    obtain ⟨rest, hrest, hdecodes'⟩ := ih (afterRun_map mid) hr'.afterRun hafter
    refine ⟨first ++ rest, ?_, List.forall_mem_append.mpr ⟨hdecodes, hdecodes'⟩⟩
    rw [run_map, hfirst, hrest]
    rfl

/-- A constant spells the text of a pattern if the pairs that their comparison leaves decode. -/
theorem spells_of_reduce (hL : escapedL = true) (hR : escapedR = true) (hl : l = cs.map .char)
    (hr : Separated S σ r) (hcs : S.Begins cs) (h : reduce escapedL escapedR l r = some pairs)
    (hpairs : Decodes σ pairs) : S.Spells cs (textOf σ r) := by
  have hcut : ∀ {cs l' r r'}, cancelBoth (cs.map .char) r = some (l', r') → Separated S σ r →
      S.Begins cs → ∃ mid, l' = mid.map .char ∧ Separated S σ r' ∧ S.Begins mid ∧
        (S.Spells mid (textOf σ r') → S.Spells cs (textOf σ r)) := by
    intro cs l' r r' hc hr hcs
    obtain ⟨pre, mid, post, rfl, rfl, hcut⟩ := exists_of_cancelBoth_map hc
    have hmid := hcs.left.drop_plain (hr.plain_of_cancelled hcut).1
    exact ⟨mid, rfl, hr.of_cancelled hcut, hmid, spells_of_cancelled hr hcut⟩
  fun_induction reduce escapedL escapedR l r generalizing cs pairs with
  | case1 => cases h
  | case2 l r l' r' hc hnil =>
    obtain ⟨mid, rfl, -, -, hback⟩ := hcut (hl ▸ hc) hr hcs
    rw [List.map_eq_nil_iff.mp hnil.1, hnil.2] at hback
    exact hback .nil
  | case3 => cases h
  | case4 l r l' r' hc _ _ _ ih =>
    obtain ⟨mid, hmid, hr', hcs', hback⟩ := hcut (hl ▸ hc) hr hcs
    exact hback (ih hmid hr' hcs' h hpairs)
  | case5 l r l' r' hc _ _ _ hescaped => exact absurd ⟨hL, hR⟩ hescaped
  | case6 => cases h
  | case7 l r l' r' hc =>
    obtain ⟨mid, rfl, hr', hcs', hback⟩ := hcut (hl ▸ hc) hr hcs
    rw [hL] at h
    exact hback (spells_of_settle (q := ⟨_, r'⟩) hr' hcs' h hpairs)
  | case8 l r l' r' hc _ _ _ _ _ _ ih =>
    obtain ⟨mid, rfl, hr', hcs', hback⟩ := hcut (hl ▸ hc) hr hcs
    obtain ⟨first, hfirst, h⟩ := Option.bind_eq_some_iff.mp h
    obtain ⟨rest, hrest, rfl⟩ := Option.map_eq_some_iff.mp h
    obtain ⟨hdecodes, hdecodes'⟩ := List.forall_mem_append.mp hpairs
    rw [run_map] at hfirst
    rw [← List.takeWhile_append_dropWhile (p := isRunChar) (l := mid)] at hcs'
    have hrun := spells_of_settle (q := ⟨true, Pattern.run r'⟩) hr'.run hcs'.left hfirst hdecodes
    rw [List.takeWhile_append_dropWhile] at hcs'
    have hafter := ih (afterRun_map mid) hr'.afterRun hcs'.dropWhile hrest hdecodes'
    have happend := hrun.append hafter
    rw [List.takeWhile_append_dropWhile, ← textOf_append, run_append_afterRun] at happend
    exact hback happend

/-- A constant that is spelled is compared with a pattern as its text is. -/
theorem decodes_iff (hcs : ∃ u, S.Spells cs u) (hr : Separated S σ r) :
    (∃ pairs, reduce true true (cs.map .char) r = some pairs ∧ Decodes σ pairs) ↔
      decodeChars cs = textOf σ r := by
  obtain ⟨u, hu⟩ := hcs
  constructor
  · rintro ⟨pairs, h, hpairs⟩
    exact (spells_of_reduce rfl rfl rfl hr hu.begins h hpairs).decodeChars
  · intro h
    rw [hu.decodeChars] at h
    exact reduce_of_spells rfl rfl rfl hr (h ▸ hu)

end Pattern

end VirtualGraph
