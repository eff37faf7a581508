import VirtualGraph.Proofs.Block.Truth

/-!
# Normal conditions

A condition is normal if no law of simplification applies anywhere in it. Constants stand alone,
connectives have several different members, none of their own kind and none of the dual kind with a
member in common, and only conditions are negated that have no opposite. Scalars are not looked
into: an atomic condition is normal whatever it compares.

One pass of simplification makes every condition normal, although opening a connective or a single
member that is left may bring new work for the connective around it: all that it passes on is normal
itself. Normal conditions stay as they are. The same holds of lists of conditions that all have to
hold.
-/

namespace VirtualGraph

/-- Members of a connective to which none of its laws applies. -/
structure Connective.Regular (k : Connective) (items : List Condition) : Prop where
  several : 2 ≤ items.length
  distinct : items.Nodup
  /-- No member is of the same kind. -/
  opened : ∀ c ∈ items, k.members? c = none
  /-- No member of the dual kind has a member in common with the connective. -/
  apart : ∀ c ∈ items, ∀ d ∈ (k.dual.members? c).getD [], d ∉ items

instance (k : Connective) (items : List Condition) : Decidable (k.Regular items) :=
  decidable_of_iff (2 ≤ items.length ∧ items.Nodup ∧ (∀ c ∈ items, k.members? c = none) ∧
      ∀ c ∈ items, ∀ d ∈ (k.dual.members? c).getD [], d ∉ items)
    ⟨fun h => ⟨h.1, h.2.1, h.2.2.1, h.2.2.2⟩, fun h => ⟨h.several, h.distinct, h.opened, h.apart⟩⟩

theorem flatMap_eq_self {α : Type} {f : α → List α} {l : List α} (h : ∀ x ∈ l, f x = [x]) :
    l.flatMap f = l := by
  rw [List.flatMap_def, List.map_congr_left h, ← List.flatMap_def, List.flatMap_singleton']

theorem nodup_addNew {seen : List Condition} (h : seen.Nodup) (cs : List Condition) :
    (addNew seen cs).Nodup := by
  induction cs generalizing seen with
  | nil => exact h
  | cons c cs ih =>
    rw [addNew]
    split
    · exact ih h
    · rename_i hc
      refine ih (List.nodup_append.mpr ⟨h, List.pairwise_singleton _ c, ?_⟩)
      rintro a ha b hb rfl
      rw [List.mem_singleton] at hb
      exact hc (List.contains_iff_mem.mpr (hb ▸ ha))

/-- Nothing is left out of a list without repetitions. -/
theorem addNew_eq_append {seen cs : List Condition} (h : (seen ++ cs).Nodup) :
    addNew seen cs = seen ++ cs := by
  induction cs generalizing seen with
  | nil => exact (List.append_nil seen).symm
  | cons c cs ih =>
    have hc : ¬seen.contains c = true := fun hmem =>
      (List.nodup_append.mp h).2.2 c (List.contains_iff_mem.mp hmem) c List.mem_cons_self rfl
    rw [List.append_cons] at h ⊢
    rw [addNew, if_neg hc, ih h]

namespace Condition

variable {k : Connective} {c : Condition} {cs items : List Condition}

/-- A condition that has no opposite but its negation. -/
def Unopposed : Condition → Prop
  | always => False
  | never => False
  | not _ => False
  | compare _ _ _ => False
  | _ => True

instance : DecidablePred Unopposed
  | always => instDecidableFalse
  | never => instDecidableFalse
  | and _ => instDecidableTrue
  | or _ => instDecidableTrue
  | not _ => instDecidableFalse
  | compare _ _ _ => instDecidableFalse
  | sameVariable _ _ => instDecidableTrue
  | sameValue _ _ => instDecidableTrue
  | isNull _ => instDecidableTrue
  | langMatches _ _ => instDecidableTrue
  | like _ _ => instDecidableTrue

mutual

/-- A normal condition that is no constant. -/
def Reduced : Condition → Prop
  | always => False
  | never => False
  | and items => Connective.Regular .and items ∧ ReducedEach items
  | or items => Connective.Regular .or items ∧ ReducedEach items
  | not inner => inner.Unopposed ∧ Reduced inner
  | compare _ _ _ => True
  | sameVariable _ _ => True
  | sameValue _ _ => True
  | isNull _ => True
  | langMatches _ _ => True
  | like _ _ => True
termination_by structural x => x

def ReducedEach : List Condition → Prop
  | [] => True
  | c :: rest => Reduced c ∧ ReducedEach rest
termination_by structural x => x

end

/-- A condition to which no law of simplification applies. -/
def Normal (c : Condition) : Prop := c = always ∨ c = never ∨ c.Reduced

mutual

def decideReduced : ∀ c : Condition, Decidable c.Reduced
  | always => instDecidableFalse
  | never => instDecidableFalse
  | and items => @instDecidableAnd _ _ _ (decideReducedEach items)
  | or items => @instDecidableAnd _ _ _ (decideReducedEach items)
  | not inner => @instDecidableAnd _ _ _ (decideReduced inner)
  | compare _ _ _ => instDecidableTrue
  | sameVariable _ _ => instDecidableTrue
  | sameValue _ _ => instDecidableTrue
  | isNull _ => instDecidableTrue
  | langMatches _ _ => instDecidableTrue
  | like _ _ => instDecidableTrue
termination_by structural x => x

def decideReducedEach : ∀ cs : List Condition, Decidable (ReducedEach cs)
  | [] => instDecidableTrue
  | c :: rest => @instDecidableAnd _ _ (decideReduced c) (decideReducedEach rest)
termination_by structural x => x

end

instance : DecidablePred Reduced := decideReduced

instance : DecidablePred Normal := fun c =>
  inferInstanceAs (Decidable (c = always ∨ c = never ∨ c.Reduced))

@[simp] theorem reducedEach_iff : ReducedEach cs ↔ ∀ c ∈ cs, c.Reduced := by
  induction cs with
  | nil => simp [ReducedEach]
  | cons c cs ih => simp [ReducedEach, ih]

theorem reduced_apply : (k.apply items).Reduced ↔ k.Regular items ∧ ∀ c ∈ items, c.Reduced := by
  cases k <;> simp [Connective.apply, Reduced]

theorem Reduced.ne_absorbing (h : c.Reduced) : c ≠ k.absorbing := by
  rintro rfl
  cases k <;> exact h

theorem Reduced.ne_neutral (h : c.Reduced) : c ≠ k.neutral := by
  rintro rfl
  cases k <;> exact h

theorem Reduced.normal (h : c.Reduced) : c.Normal := .inr (.inr h)

theorem normal_absorbing : k.absorbing.Normal := by
  cases k
  · exact .inr (.inl rfl)
  · exact .inl rfl

theorem normal_neutral : k.neutral.Normal := by
  cases k
  · exact .inl rfl
  · exact .inr (.inl rfl)

theorem Normal.reduced (h : c.Normal) (habsorbing : c ≠ k.absorbing) (hneutral : c ≠ k.neutral) :
    c.Reduced := by
  obtain rfl | rfl | h := h
  · cases k
    · exact absurd rfl hneutral
    · exact absurd rfl habsorbing
  · cases k
    · exact absurd rfl habsorbing
    · exact absurd rfl hneutral
  · exact h

/-! ### Connectives -/

/-- What is opened of normal members is normal, and not of the kind that was opened. -/
theorem normal_of_mem_opened (h : ∀ c ∈ items, c.Normal) (hc : c ∈ opened k items) :
    c.Normal ∧ k.members? c = none := by
  obtain ⟨d, hd, hc⟩ := List.mem_flatMap.mp hc
  cases hm : k.members? d with
  | none =>
    rw [hm, Option.getD_none, List.mem_singleton] at hc
    subst hc
    exact ⟨h c hd, hm⟩
  | some ms =>
    rw [hm, Option.getD_some] at hc
    obtain rfl := eq_apply_of_members? hm
    have hreduced : (k.apply ms).Reduced :=
      (h _ hd).reduced (k := k) (by cases k <;> nofun) (by cases k <;> nofun)
    obtain ⟨hregular, hmembers⟩ := reduced_apply.mp hreduced
    exact ⟨(hmembers c hc).normal, hregular.opened c hc⟩

theorem reduced_of_mem_kept (h : ∀ c ∈ items, c.Normal) (habsorbing : k.absorbing ∉ opened k items)
    (hc : c ∈ kept k items) : c.Reduced := by
  have hopened := mem_opened_of_mem_kept hc
  have hflat := (List.mem_filter.mp hc).1
  rw [mem_addNew, List.mem_filter] at hflat
  obtain hnil | ⟨-, hneutral⟩ := hflat
  · exact absurd hnil List.not_mem_nil
  · have hneutral : c ≠ k.neutral := by simpa using hneutral
    have habsorbing : c ≠ k.absorbing := fun heq => habsorbing (heq ▸ hopened)
    exact (normal_of_mem_opened h hopened).1.reduced habsorbing hneutral

theorem regular_kept (h : ∀ c ∈ items, c.Normal) (hlength : 2 ≤ (kept k items).length) :
    k.Regular (kept k items) where
  several := hlength
  distinct := (nodup_addNew List.nodup_nil _).filter _
  opened _ hc := (normal_of_mem_opened h (mem_opened_of_mem_kept hc)).2
  apart c hc d hd hkept := by
    -- What is left was tested against all members, those that went away among them.
    have hapart := (List.mem_filter.mp hc).2
    have habsorbed : isAbsorbed k _ c = true :=
      List.any_eq_true.mpr ⟨d, hd, List.contains_iff_mem.mpr (List.mem_filter.mp hkept).1⟩
    rw [habsorbed] at hapart
    cases hapart

theorem normal_connect (h : ∀ c ∈ items, c.Normal) : (connect k items).Normal := by
  obtain ⟨-, heq⟩ | ⟨-, heq⟩ | ⟨c, habsorbing, hkept, heq⟩ | ⟨habsorbing, hlength, heq⟩ :=
    connect_cases k items
  · exact heq ▸ normal_absorbing
  · exact heq ▸ normal_neutral
  · rw [heq]
    exact (reduced_of_mem_kept h habsorbing (hkept ▸ List.mem_singleton_self c)).normal
  · rw [heq]
    refine (reduced_apply.mpr ⟨regular_kept h hlength, fun c hc => ?_⟩).normal
    exact reduced_of_mem_kept h habsorbing hc

theorem opened_eq_self (h : ∀ c ∈ items, k.members? c = none) : opened k items = items :=
  flatMap_eq_self fun c hc => by rw [h c hc, Option.getD_none]

theorem kept_eq_self (hregular : k.Regular items) (h : ∀ c ∈ items, c.Reduced) :
    kept k items = items := by
  have hflat : addNew [] ((opened k items).filter (· ≠ k.neutral)) = items := by
    rw [opened_eq_self hregular.opened, List.filter_eq_self.mpr]
    · exact addNew_eq_append hregular.distinct
    · exact fun c hc => by simpa using (h c hc).ne_neutral
  rw [kept, hflat]
  refine List.filter_eq_self.mpr fun c hc => ?_
  cases habsorbed : isAbsorbed k items c with
  | false => rfl
  | true =>
    obtain ⟨d, hd, hmem⟩ := List.any_eq_true.mp habsorbed
    exact absurd (List.contains_iff_mem.mp hmem) (hregular.apart c hc d hd)

/-- The connective of regular members is put together from the same members. -/
theorem connect_eq_apply (hregular : k.Regular items) (h : ∀ c ∈ items, c.Reduced) :
    connect k items = k.apply items := by
  have hlength := hregular.several
  have hkept := kept_eq_self hregular h
  obtain ⟨habsorbing, -⟩ | ⟨hnil, -⟩ | ⟨c, -, hsingle, -⟩ | ⟨-, -, heq⟩ := connect_cases k items
  · rw [opened_eq_self hregular.opened] at habsorbing
    exact absurd rfl (h _ habsorbing).ne_absorbing
  · rw [← hkept, hnil] at hlength
    exact absurd hlength (Nat.not_succ_le_zero 1)
  · rw [← hkept, hsingle] at hlength
    exact absurd hlength (Nat.not_succ_le_self 1)
  · rw [heq, hkept]

/-! ### Conditions -/

theorem normal_negate (h : c.Normal) : c.negate.Normal := by
  cases c with
  | always => exact .inr (.inl rfl)
  | never => exact .inl rfl
  | not inner =>
    obtain h | h | ⟨-, hinner⟩ := h
    · cases h
    · cases h
    · exact hinner.normal
  | and items =>
    obtain h | h | h := h
    · cases h
    · cases h
    · exact .inr (.inr ⟨trivial, h⟩)
  | or items =>
    obtain h | h | h := h
    · cases h
    · cases h
    · exact .inr (.inr ⟨trivial, h⟩)
  | compare op l r => exact .inr (.inr trivial)
  | _ => exact .inr (.inr ⟨trivial, trivial⟩)

theorem negate_eq_not (h : c.Unopposed) : c.negate = not c := by
  cases c with
  | always => cases h
  | never => cases h
  | not inner => cases h
  | compare op l r => cases h
  | _ => rfl

mutual

/-- Simplification makes every condition normal. -/
theorem normal_simplify : ∀ c : Condition, c.simplify.Normal
  | and items => normal_connect (normal_of_mem_simplifyEach items)
  | or items => normal_connect (normal_of_mem_simplifyEach items)
  | not inner => normal_negate (normal_simplify inner)
  | always => .inl rfl
  | never => .inr (.inl rfl)
  | compare _ _ _ => .inr (.inr trivial)
  | sameVariable _ _ => .inr (.inr trivial)
  | sameValue _ _ => .inr (.inr trivial)
  | isNull _ => .inr (.inr trivial)
  | langMatches _ _ => .inr (.inr trivial)
  | like _ _ => .inr (.inr trivial)

theorem normal_of_mem_simplifyEach : ∀ cs : List Condition, ∀ c ∈ simplifyEach cs, c.Normal
  | [] => nofun
  | c :: rest =>
    List.forall_mem_cons.mpr ⟨normal_simplify c, normal_of_mem_simplifyEach rest⟩

end

mutual

theorem Reduced.simplify_eq : ∀ {c : Condition}, c.Reduced → c.simplify = c
  | and items, ⟨hregular, hitems⟩ => by
    rw [simplify, simplifyEach_eq_self hitems]
    exact connect_eq_apply hregular (reducedEach_iff.mp hitems)
  | or items, ⟨hregular, hitems⟩ => by
    rw [simplify, simplifyEach_eq_self hitems]
    exact connect_eq_apply hregular (reducedEach_iff.mp hitems)
  | not inner, ⟨hunopposed, hinner⟩ => by
    rw [simplify, Reduced.simplify_eq hinner, negate_eq_not hunopposed]
  | compare _ _ _, _ => rfl
  | sameVariable _ _, _ => rfl
  | sameValue _ _, _ => rfl
  | isNull _, _ => rfl
  | langMatches _ _, _ => rfl
  | like _ _, _ => rfl

theorem simplifyEach_eq_self : ∀ {cs : List Condition}, ReducedEach cs → simplifyEach cs = cs
  | [], _ => rfl
  | c :: rest, ⟨hc, hrest⟩ => by
    rw [simplifyEach, Reduced.simplify_eq hc, simplifyEach_eq_self hrest]

end

/-- Normal conditions stay as they are. -/
theorem Normal.simplify_eq (h : c.Normal) : c.simplify = c := by
  obtain rfl | rfl | h := h
  · rfl
  · rfl
  · exact h.simplify_eq

/-! ### Lists of conditions -/

/-- A list of conditions that all have to hold to which no law of simplification applies. -/
def NormalList (cs : List Condition) : Prop :=
  cs = [never] ∨ cs.Nodup ∧ ∀ c ∈ cs, c.Reduced ∧ Connective.and.members? c = none

/-- What a normal condition adds to a list of conditions that all have to hold. -/
theorem reduced_of_mem_conjuncts {d : Condition} (h : c.Normal) (hc : c ≠ never)
    (hd : d ∈ c.conjuncts) : d.Reduced ∧ Connective.and.members? d = none := by
  obtain rfl | rfl | h := h
  · cases hd
  · exact absurd rfl hc
  · cases c with
    | always => cases hd
    | and items => exact ⟨reducedEach_iff.mp h.2 d hd, h.1.opened d hd⟩
    | _ =>
      obtain rfl := List.mem_singleton.mp hd
      exact ⟨h, rfl⟩

theorem simplifyAll_cases (cs : List Condition) :
    never ∈ simplifyEach cs ∧ simplifyAll cs = [never] ∨
    never ∉ simplifyEach cs ∧
      simplifyAll cs = addNew [] ((simplifyEach cs).flatMap conjuncts) := by
  unfold simplifyAll
  dsimp only
  split
  · rename_i hnever
    exact .inl ⟨List.contains_iff_mem.mp hnever, rfl⟩
  · rename_i hnever
    exact .inr ⟨fun hmem => hnever (List.contains_iff_mem.mpr hmem), rfl⟩

theorem normalList_simplifyAll (cs : List Condition) : NormalList (simplifyAll cs) := by
  obtain ⟨-, heq⟩ | ⟨hnever, heq⟩ := simplifyAll_cases cs
  · exact .inl heq
  · rw [heq]
    refine .inr ⟨nodup_addNew List.nodup_nil _, fun d hd => ?_⟩
    obtain hnil | hd := mem_addNew.mp hd
    · exact absurd hnil List.not_mem_nil
    · obtain ⟨c, hc, hd⟩ := List.mem_flatMap.mp hd
      exact reduced_of_mem_conjuncts (normal_of_mem_simplifyEach cs c hc)
        (fun h => hnever (h ▸ hc)) hd

theorem NormalList.simplifyEach_eq (h : NormalList cs) : simplifyEach cs = cs := by
  obtain rfl | ⟨-, h⟩ := h
  · rfl
  · exact simplifyEach_eq_self (reducedEach_iff.mpr fun c hc => (h c hc).1)

theorem conjuncts_eq_self (h : c.Reduced) (hopened : Connective.and.members? c = none) :
    c.conjuncts = [c] := by
  cases c with
  | always => cases h
  | and items => cases hopened
  | _ => rfl

/-- Normal lists stay as they are. -/
theorem NormalList.simplifyAll_eq (h : NormalList cs) : simplifyAll cs = cs := by
  have hcases := simplifyAll_cases cs
  rw [h.simplifyEach_eq] at hcases
  obtain rfl | ⟨hnodup, hmembers⟩ := h
  · rfl
  obtain ⟨hnever, -⟩ | ⟨-, heq⟩ := hcases
  · exact (hmembers never hnever).1.elim
  have hconjuncts : cs.flatMap conjuncts = cs :=
    flatMap_eq_self fun c hc => conjuncts_eq_self (hmembers c hc).1 (hmembers c hc).2
  rw [heq, hconjuncts]
  exact addNew_eq_append hnodup

end Condition

end VirtualGraph
