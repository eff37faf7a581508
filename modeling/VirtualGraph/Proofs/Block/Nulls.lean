import VirtualGraph.Proofs.Block.Narrowing
import VirtualGraph.Proofs.Block.Rows
import VirtualGraph.Proofs.Block.WellBuilt

/-!
# Null facts hold

The facts about nulls that are read off a block hold on its rows. The facts of a condition hold
where it has the truth value in question, those of assignments because each variable is assigned
once, and those of sources because every row of a block fits all of its sources: its variables from
a source are those of one of the source's own rows, or all null if the source is a left join.

Where facts hold, deciding the null checks that they decide changes nothing.
-/

namespace VirtualGraph

variable {α : Type} {D : ValueDomain α} {row row' : Row α} {v : Variable} {vs ws : List Variable}

namespace NullFacts

variable {f g : NullFacts} {fs : List NullFacts}

/-- The facts are true of a row. -/
def Holds (f : NullFacts) (row : Row α) : Prop :=
  (∀ v ∈ f.nonNull, row v ≠ none) ∧ ∀ v ∈ f.null, row v = none

theorem holds_empty : empty.Holds row := by
  constructor <;> intro v hv <;> exact absurd hv List.not_mem_nil

theorem holds_and : (f.and g).Holds row ↔ f.Holds row ∧ g.Holds row := by
  simp only [Holds, NullFacts.and, List.forall_mem_append]
  exact and_and_and_comm

theorem Holds.or_left (h : f.Holds row) : (f.or g).Holds row :=
  ⟨fun v hv => h.1 v (List.mem_filter.mp hv).1, fun v hv => h.2 v (List.mem_filter.mp hv).1⟩

theorem Holds.or_right (h : g.Holds row) : (f.or g).Holds row :=
  ⟨fun v hv => h.1 v (by simpa using (List.mem_filter.mp hv).2),
    fun v hv => h.2 v (by simpa using (List.mem_filter.mp hv).2)⟩

theorem holds_foldl_and (hf : f.Holds row) (h : ∀ g ∈ fs, g.Holds row) :
    (fs.foldl NullFacts.and f).Holds row := by
  induction fs generalizing f with
  | nil => exact hf
  | cons g fs ih =>
    obtain ⟨hg, hfs⟩ := List.forall_mem_cons.mp h
    exact ih (holds_and.mpr ⟨hf, hg⟩) hfs

theorem holds_all (h : ∀ f ∈ fs, f.Holds row) : (all fs).Holds row :=
  holds_foldl_and holds_empty h

theorem holds_foldl_or (h : f.Holds row ∨ ∃ g ∈ fs, g.Holds row) :
    (fs.foldl NullFacts.or f).Holds row := by
  induction fs generalizing f with
  | nil =>
    obtain h | ⟨g, hg, -⟩ := h
    · exact h
    · exact absurd hg List.not_mem_nil
  | cons g fs ih =>
    refine ih ?_
    obtain h | ⟨g', hg', h⟩ := h
    · exact .inl h.or_left
    · obtain rfl | hg' := List.mem_cons.mp hg'
      · exact .inl h.or_right
      · exact .inr ⟨g', hg', h⟩

theorem holds_any (h : ∃ f ∈ fs, f.Holds row) : (any fs).Holds row := by
  cases fs with
  | nil => exact holds_empty
  | cons f fs =>
    refine holds_foldl_or ?_
    obtain ⟨g, hg, h⟩ := h
    obtain rfl | hg := List.mem_cons.mp hg
    · exact .inl h
    · exact .inr ⟨g, hg, h⟩

theorem mem_nonNull_restrict : v ∈ (f.restrict vs).nonNull ↔ v ∈ f.nonNull ∧ v ∈ vs := by
  simp [restrict]

theorem mem_null_restrict : v ∈ (f.restrict vs).null ↔ v ∈ f.null ∧ v ∈ vs := by
  simp [restrict]

theorem Holds.restrict (h : f.Holds row) (vs : List Variable) : (f.restrict vs).Holds row :=
  ⟨fun v hv => h.1 v (mem_nonNull_restrict.mp hv).1, fun v hv => h.2 v (mem_null_restrict.mp hv).1⟩

theorem Holds.restrict_mono (h : (f.restrict vs).Holds row) (hsub : ws ⊆ vs) :
    (f.restrict ws).Holds row := by
  constructor
  · intro v hv
    obtain ⟨hf, hv⟩ := mem_nonNull_restrict.mp hv
    exact h.1 v (mem_nonNull_restrict.mpr ⟨hf, hsub hv⟩)
  · intro v hv
    obtain ⟨hf, hv⟩ := mem_null_restrict.mp hv
    exact h.2 v (mem_null_restrict.mpr ⟨hf, hsub hv⟩)

/-- The facts are about given variables only. -/
def About (f : NullFacts) (vs : List Variable) : Prop := f.nonNull ⊆ vs ∧ f.null ⊆ vs

theorem about_restrict : (f.restrict vs).About vs :=
  ⟨fun _ hv => (mem_nonNull_restrict.mp hv).2, fun _ hv => (mem_null_restrict.mp hv).2⟩

theorem About.mono (h : f.About vs) (hsub : vs ⊆ ws) : f.About ws :=
  ⟨List.Subset.trans h.1 hsub, List.Subset.trans h.2 hsub⟩

theorem About.and (hf : f.About vs) (hg : g.About vs) : (f.and g).About vs :=
  ⟨List.append_subset.mpr ⟨hf.1, hg.1⟩, List.append_subset.mpr ⟨hf.2, hg.2⟩⟩

theorem Holds.congr (h : f.Holds row) (hf : f.About vs) (heq : ∀ v ∈ vs, row' v = row v) :
    f.Holds row' :=
  ⟨fun v hv => heq v (hf.1 hv) ▸ h.1 v hv, fun v hv => (heq v (hf.2 hv)).trans (h.2 v hv)⟩

end NullFacts

namespace Nullness

/-- A value is as it is said to be. -/
def Describes : Nullness → Option α → Prop
  | nonNull, x => x ≠ none
  | null, x => x = none
  | unknown, _ => True

end Nullness

namespace Scalar

variable {f : NullFacts} {xs : List Scalar} {branches : List (Condition × Scalar)}

theorem evalAll_eq_none : evalAll D row xs = none ↔ ∃ x ∈ xs, x.eval D row = none := by
  induction xs with
  | nil => simp [evalAll]
  | cons x xs ih =>
    rw [List.exists_mem_cons_iff, ← ih, evalAll]
    cases x.eval D row <;> cases evalAll D row xs <;> simp

theorem evalFirst_eq_none : evalFirst D row xs = none ↔ ∀ x ∈ xs, x.eval D row = none := by
  induction xs with
  | nil => simp [evalFirst]
  | cons x xs ih =>
    rw [List.forall_mem_cons, ← ih, evalFirst]
    cases x.eval D row <;> simp

theorem evalBranch_cases (D : ValueDomain α) (row : Row α) (branches : List (Condition × Scalar)) :
    evalBranch D row branches = none ∨
      ∃ branch ∈ branches, evalBranch D row branches = some (branch.2.eval D row) := by
  induction branches with
  | nil => exact .inl rfl
  | cons branch branches ih =>
    rw [evalBranch]
    split
    · exact .inr ⟨branch, List.mem_cons_self, rfl⟩
    · obtain h | ⟨b, hb, h⟩ := ih
      · exact .inl h
      · exact .inr ⟨b, List.mem_cons_of_mem _ hb, h⟩

theorem nullnessEach_eq_map (f : NullFacts) (xs : List Scalar) :
    nullnessEach f xs = xs.map (nullness f) := by
  induction xs with
  | nil => rfl
  | cons x xs ih => rw [nullnessEach, ih, List.map_cons]

theorem nullnessBranches_eq_map (f : NullFacts) (branches : List (Condition × Scalar)) :
    nullnessBranches f branches = branches.map fun branch => nullness f branch.2 := by
  induction branches with
  | nil => rfl
  | cons branch branches ih => rw [nullnessBranches, ih, List.map_cons]

theorem describes_ofConcat (h : ∀ x ∈ xs, (x.nullness f).Describes (x.eval D row)) :
    (Nullness.ofConcat (nullnessEach f xs)).Describes ((concat xs).eval D row) := by
  rw [nullnessEach_eq_map, Nullness.ofConcat, eval]
  split
  · rename_i hnull
    obtain ⟨x, hx, hn⟩ := List.mem_map.mp (List.contains_iff_mem.mp hnull)
    have hx := hn ▸ h x hx
    exact Option.map_eq_none_iff.mpr (evalAll_eq_none.mpr ⟨x, ‹_›, hx⟩)
  · split
    · rename_i hall
      rw [List.all_map, List.all_eq_true] at hall
      intro hnone
      obtain ⟨x, hx, hn⟩ := evalAll_eq_none.mp (Option.map_eq_none_iff.mp hnone)
      have hd := h x hx
      rw [show x.nullness f = .nonNull by simpa using hall x hx] at hd
      exact hd hn
    · trivial

theorem describes_ofCoalesce (h : ∀ x ∈ xs, (x.nullness f).Describes (x.eval D row)) :
    (Nullness.ofCoalesce (nullnessEach f xs)).Describes ((coalesce xs).eval D row) := by
  rw [nullnessEach_eq_map, Nullness.ofCoalesce, eval]
  split
  · rename_i hsome
    obtain ⟨x, hx, hn⟩ := List.mem_map.mp (List.contains_iff_mem.mp hsome)
    have hd := hn ▸ h x hx
    exact fun hnone => hd (evalFirst_eq_none.mp hnone x hx)
  · split
    · rename_i hall
      rw [List.all_map, List.all_eq_true] at hall
      refine evalFirst_eq_none.mpr fun x hx => ?_
      have hd := h x hx
      rw [show x.nullness f = .null by simpa using hall x hx] at hd
      exact hd
    · trivial

theorem describes_ofChoice {otherwise : Scalar}
    (h : ∀ branch ∈ branches, (branch.2.nullness f).Describes (branch.2.eval D row))
    (ho : (otherwise.nullness f).Describes (otherwise.eval D row)) :
    (Nullness.ofChoice (otherwise.nullness f) (nullnessBranches f branches)).Describes
      ((case branches otherwise).eval D row) := by
  rw [nullnessBranches_eq_map, Nullness.ofChoice, eval]
  split
  · rename_i hall
    rw [List.all_map, List.all_eq_true] at hall
    obtain hnone | ⟨branch, hb, hsome⟩ := evalBranch_cases D row branches
    · rw [hnone]
      exact ho
    · rw [hsome, ← show branch.2.nullness f = otherwise.nullness f by simpa using hall branch hb]
      exact h branch hb
  · trivial

mutual

/-- What facts say about a scalar is true of its value. -/
theorem describes_nullness (hf : f.Holds row) :
    ∀ x : Scalar, (x.nullness f).Describes (x.eval D row)
  | column v => by
    rw [nullness]
    split
    · rename_i h
      exact hf.1 v (List.contains_iff_mem.mp h)
    · split
      · rename_i h
        exact hf.2 v (List.contains_iff_mem.mp h)
      · trivial
  | constant _ _ => Option.some_ne_none _
  | null => rfl
  | concat items => describes_ofConcat (describes_nullnessEach hf items)
  | coalesce items => describes_ofCoalesce (describes_nullnessEach hf items)
  | case branches otherwise =>
    describes_ofChoice (describes_nullnessBranches hf branches) (describes_nullness hf otherwise)

theorem describes_nullnessEach (hf : f.Holds row) :
    ∀ xs : List Scalar, ∀ x ∈ xs, (x.nullness f).Describes (x.eval D row)
  | [] => fun _ h => absurd h List.not_mem_nil
  | x :: rest => List.forall_mem_cons.mpr ⟨describes_nullness hf x, describes_nullnessEach hf rest⟩

theorem describes_nullnessBranches (hf : f.Holds row) :
    ∀ branches : List (Condition × Scalar),
      ∀ branch ∈ branches, (branch.2.nullness f).Describes (branch.2.eval D row)
  | [] => fun _ h => absurd h List.not_mem_nil
  | (_, x) :: rest =>
    List.forall_mem_cons.mpr ⟨describes_nullness hf x, describes_nullnessBranches hf rest⟩

end

mutual

/-- A scalar has a value only if its strict variables do. -/
theorem ne_none_of_strict : ∀ x : Scalar, x.eval D row ≠ none →
    ∀ v ∈ x.strictVariables, row v ≠ none
  | column w => by
    intro h v hv
    obtain rfl := List.mem_singleton.mp hv
    exact h
  | constant _ _ => fun _ _ hv => absurd hv List.not_mem_nil
  | null => fun _ _ hv => absurd hv List.not_mem_nil
  | concat items => by
    intro h
    refine ne_none_of_strictAll items fun x hx hnone => h ?_
    exact Option.map_eq_none_iff.mpr (evalAll_eq_none.mpr ⟨x, hx, hnone⟩)
  | coalesce _ => fun _ _ hv => absurd hv List.not_mem_nil
  | case _ _ => fun _ _ hv => absurd hv List.not_mem_nil

theorem ne_none_of_strictAll : ∀ xs : List Scalar, (∀ x ∈ xs, x.eval D row ≠ none) →
    ∀ v ∈ strictVariablesAll xs, row v ≠ none
  | [], _ => fun _ hv => absurd hv List.not_mem_nil
  | x :: rest, h => by
    obtain ⟨hx, hrest⟩ := List.forall_mem_cons.mp h
    exact List.forall_mem_append.mpr ⟨ne_none_of_strict x hx, ne_none_of_strictAll rest hrest⟩

end

end Scalar

namespace Condition

variable {f : NullFacts} {value : Bool}

theorem evalEach_eq_map (D : ValueDomain α) (row : Row α) (cs : List Condition) :
    evalEach D row cs = cs.map (eval D row) := by
  induction cs with
  | nil => rfl
  | cons c cs ih => rw [evalEach, ih, List.map_cons]

theorem allHold_iff {cs : List Condition} :
    AllHold D row cs ↔ Truth.all (evalEach D row cs) = .yes := by
  rw [evalEach_eq_map, Truth.all_eq_yes, List.forall_mem_map]
  rfl

theorem factsEach_eq_map (value : Bool) (cs : List Condition) :
    factsEach value cs = cs.map (facts value) := by
  induction cs with
  | nil => rfl
  | cons c cs ih => rw [factsEach, ih, List.map_cons]

theorem not_eq_ofBool {t : Truth} (h : t.not = .ofBool value) : t = .ofBool (!value) := by
  rw [Truth.ofBool_not, ← h, Truth.not_not]

/-- A test of two values is decided only if both are there. -/
theorem holds_strict {l r : Scalar} (h : l.eval D row ≠ none ∧ r.eval D row ≠ none) :
    (⟨l.strictVariables ++ r.strictVariables, []⟩ : NullFacts).Holds row :=
  ⟨List.forall_mem_append.mpr ⟨Scalar.ne_none_of_strict l h.1, Scalar.ne_none_of_strict r h.2⟩,
    fun _ hv => absurd hv List.not_mem_nil⟩

theorem ne_none_of_decided {x y : Option α} {test : α → α → Bool}
    (h : (match x, y with
      | some a, some b => Truth.ofBool (test a b)
      | _, _ => .unknown) = .ofBool value) : x ≠ none ∧ y ≠ none := by
  cases x <;> cases y <;> cases value <;> simp_all [Truth.ofBool]

theorem ne_none_of_tested {x : Option α} {test : α → Bool}
    (h : (match x with
      | some a => Truth.ofBool (test a)
      | none => .unknown) = .ofBool value) : x ≠ none := by
  cases x <;> cases value <;> simp_all [Truth.ofBool]

mutual

/-- The facts of a condition hold where it has the given truth value. -/
theorem holds_facts (value : Bool) :
    ∀ c : Condition, c.eval D row = .ofBool value → (c.facts value).Holds row
  | always => fun _ => NullFacts.holds_empty
  | never => fun _ => NullFacts.holds_empty
  | and items => by
    intro h
    rw [eval, evalEach_eq_map] at h
    have hitems := holds_factsEach value items
    rw [facts, factsEach_eq_map]
    cases value with
    | true =>
      refine NullFacts.holds_all (List.forall_mem_map.mpr fun c hc => hitems c hc ?_)
      exact Truth.all_eq_yes.mp h _ (List.mem_map_of_mem hc)
    | false =>
      obtain ⟨c, hc, hno⟩ := List.mem_map.mp (Truth.all_eq_no.mp h)
      exact NullFacts.holds_any ⟨_, List.mem_map_of_mem hc, hitems c hc hno⟩
  | or items => by
    intro h
    rw [eval, evalEach_eq_map] at h
    have hitems := holds_factsEach value items
    rw [facts, factsEach_eq_map]
    cases value with
    | true =>
      obtain ⟨c, hc, hyes⟩ := List.mem_map.mp (Truth.any_eq_yes.mp h)
      exact NullFacts.holds_any ⟨_, List.mem_map_of_mem hc, hitems c hc hyes⟩
    | false =>
      refine NullFacts.holds_all (List.forall_mem_map.mpr fun c hc => hitems c hc ?_)
      exact Truth.any_eq_no.mp h _ (List.mem_map_of_mem hc)
  | not inner => fun h => holds_facts (!value) inner (not_eq_ofBool h)
  | isNull v => by
    intro h
    rw [eval] at h
    cases value <;> cases hv : row v <;> simp_all [facts, NullFacts.Holds, Truth.ofBool]
  | compare _ _ _ => fun h => holds_strict (ne_none_of_decided h)
  | sameValue _ _ => fun h => holds_strict (ne_none_of_decided h)
  | sameVariable a b => fun h =>
    holds_strict (D := D) (l := .column a) (r := .column b) (ne_none_of_decided h)
  | langMatches x _ => fun h =>
    ⟨Scalar.ne_none_of_strict x (ne_none_of_tested h), fun _ hv => absurd hv List.not_mem_nil⟩
  | like x _ => fun h =>
    ⟨Scalar.ne_none_of_strict x (ne_none_of_tested h), fun _ hv => absurd hv List.not_mem_nil⟩

theorem holds_factsEach (value : Bool) : ∀ cs : List Condition,
    ∀ c ∈ cs, c.eval D row = .ofBool value → (c.facts value).Holds row
  | [] => fun _ h => absurd h List.not_mem_nil
  | c :: rest => List.forall_mem_cons.mpr ⟨holds_facts value c, holds_factsEach value rest⟩

end

/-- The facts of conditions hold where all of them are true. -/
theorem AllHold.holds_facts {cs : List Condition} (h : AllHold D row cs) :
    (NullFacts.all (factsEach true cs)).Holds row := by
  rw [factsEach_eq_map]
  exact NullFacts.holds_all
    (List.forall_mem_map.mpr fun c hc => Condition.holds_facts true c (h c hc))

mutual

/-- Deciding null checks keeps the truth value where the facts hold of what is read. -/
theorem eval_resolveNulls : ∀ c : Condition, (f.restrict c.referenced).Holds row →
    (c.resolveNulls f).1.eval D row = c.eval D row
  | and items => fun h => congrArg Truth.all (evalEach_resolveNulls items h)
  | or items => fun h => congrArg Truth.any (evalEach_resolveNulls items h)
  | not inner => fun h => congrArg Truth.not (eval_resolveNulls inner h)
  | isNull v => by
    intro h
    have hv : v ∈ (isNull v).referenced := List.mem_singleton_self v
    rw [resolveNulls]
    split
    · rename_i hf
      have hne := h.1 v (NullFacts.mem_nonNull_restrict.mpr ⟨List.contains_iff_mem.mp hf, hv⟩)
      cases hrow : row v <;> simp_all [eval, Truth.ofBool]
    · split
      · rename_i hf
        have hnone := h.2 v (NullFacts.mem_null_restrict.mpr ⟨List.contains_iff_mem.mp hf, hv⟩)
        simp [eval, hnone, Truth.ofBool]
      · rfl
  | always => fun _ => rfl
  | never => fun _ => rfl
  | compare _ _ _ => fun _ => rfl
  | sameVariable _ _ => fun _ => rfl
  | sameValue _ _ => fun _ => rfl
  | langMatches _ _ => fun _ => rfl
  | like _ _ => fun _ => rfl

theorem evalEach_resolveNulls : ∀ cs : List Condition, (f.restrict (referencedAll cs)).Holds row →
    evalEach D row (resolveNullsEach f cs).1 = evalEach D row cs
  | [] => fun _ => rfl
  | c :: rest => fun h =>
    congrArg₂ List.cons (eval_resolveNulls c (h.restrict_mono (List.subset_append_left _ _)))
      (evalEach_resolveNulls rest (h.restrict_mono (List.subset_append_right _ _)))

end

theorem allHold_resolveNulls {cs : List Condition} (hf : f.Holds row) :
    AllHold D row (resolveNullsEach f cs).1 ↔ AllHold D row cs := by
  rw [allHold_iff, allHold_iff, evalEach_resolveNulls cs (hf.restrict _)]

end Condition

namespace Scalar

variable {f : NullFacts}

mutual

/-- Deciding null checks keeps the value where the facts hold of what is read. -/
theorem eval_resolveNulls : ∀ x : Scalar, (f.restrict x.referenced).Holds row →
    (x.resolveNulls f).1.eval D row = x.eval D row
  | column _ => fun _ => rfl
  | constant _ _ => fun _ => rfl
  | null => fun _ => rfl
  | concat items => fun h => congrArg (Option.map D.concat) (evalAll_resolveNulls items h).1
  | coalesce items => fun h => (evalAll_resolveNulls items h).2
  | case branches otherwise => fun h =>
    congrArg₂ Option.getD
      (evalBranch_resolveNulls branches (h.restrict_mono (List.subset_append_left _ _)))
      (eval_resolveNulls otherwise (h.restrict_mono (List.subset_append_right _ _)))

theorem evalAll_resolveNulls : ∀ xs : List Scalar, (f.restrict (referencedAll xs)).Holds row →
    evalAll D row (resolveNullsEach f xs).1 = evalAll D row xs ∧
      evalFirst D row (resolveNullsEach f xs).1 = evalFirst D row xs
  | [] => fun _ => ⟨rfl, rfl⟩
  | x :: rest => by
    intro h
    have hx := eval_resolveNulls x (h.restrict_mono (List.subset_append_left _ _))
    obtain ⟨hall, hfirst⟩ :=
      evalAll_resolveNulls rest (h.restrict_mono (List.subset_append_right _ _))
    simp only [resolveNullsEach, evalAll, evalFirst, hx, hall, hfirst, and_self]

theorem evalBranch_resolveNulls : ∀ branches : List (Condition × Scalar),
    (f.restrict (referencedBranches branches)).Holds row →
      evalBranch D row (resolveNullsBranches f branches).1 = evalBranch D row branches
  | [] => fun _ => rfl
  | (c, x) :: rest => by
    intro h
    have hc := Condition.eval_resolveNulls (D := D) c
      (h.restrict_mono (List.subset_append_left _ _))
    have h := h.restrict_mono (List.subset_append_right _ _)
    have hx := eval_resolveNulls x (h.restrict_mono (List.subset_append_left _ _))
    have hrest := evalBranch_resolveNulls rest (h.restrict_mono (List.subset_append_right _ _))
    simp only [resolveNullsBranches, evalBranch, hc, hx, hrest]

end

end Scalar

namespace Assignment

variable {f : NullFacts} {as : List Assignment} {scope : List Variable}

theorem addFacts_about {a : Assignment} (h : f.About scope) :
    (addFacts f a).About (a.target :: scope) := by
  have h := h.mono (List.subset_cons_self a.target scope)
  rw [addFacts]
  split
  · exact ⟨List.cons_subset.mpr ⟨List.mem_cons_self, h.1⟩, h.2⟩
  · exact ⟨h.1, List.cons_subset.mpr ⟨List.mem_cons_self, h.2⟩⟩
  · exact h

theorem addFacts_holds {a : Assignment} (hf : f.Holds row) (habout : f.About scope)
    (hnew : a.target ∉ scope) :
    (addFacts f a).Holds (row.assign a.target (a.value.eval D row)) := by
  have hkept : f.Holds (row.assign a.target (a.value.eval D row)) :=
    hf.congr habout fun v hv => Row.assign_of_ne fun heq => hnew (heq ▸ hv)
  have hd := Scalar.describes_nullness (D := D) hf a.value
  rw [addFacts]
  split <;> rename_i hn <;> rw [hn] at hd
  · exact ⟨List.forall_mem_cons.mpr ⟨Row.assign_self ▸ hd, hkept.1⟩, hkept.2⟩
  · exact ⟨hkept.1, List.forall_mem_cons.mpr ⟨Row.assign_self ▸ hd, hkept.2⟩⟩
  · exact hkept

/-- The facts after assignments hold on the row after them. -/
theorem foldl_addFacts_holds (hs : Scoped scope as) (hf : f.Holds row) (habout : f.About scope) :
    (as.foldl addFacts f).Holds (run D as row) := by
  induction as generalizing f row scope with
  | nil => exact hf
  | cons a as ih =>
    obtain ⟨-, hnew, hrest⟩ := hs
    exact ih hrest (addFacts_holds hf habout hnew) (addFacts_about habout)

/-- Null checks in an assignment may be decided by facts about the row after all assignments, since
what it reads does not change any more. -/
theorem run_resolveNulls (hs : Scoped scope as) (hf : f.Holds (run D as row)) :
    run D (resolveNullsEach f as).1 row = run D as row := by
  induction as generalizing row scope with
  | nil => rfl
  | cons a as ih =>
    have hvalue : (a.value.resolveNulls f).1.eval D row = a.value.eval D row := by
      refine Scalar.eval_resolveNulls a.value ?_
      refine (hf.restrict _).congr NullFacts.about_restrict fun v hv => ?_
      exact (hs.run_eq (hs.1 hv)).symm
    show run D (resolveNullsEach f as).1
      (row.assign a.target ((a.value.resolveNulls f).1.eval D row)) = _
    rw [hvalue]
    exact ih hs.2.2 hf

end Assignment

namespace Source

variable {t : VariableTable}

/-- The facts on the rows of a source by itself, before a left join adds nulls to them. -/
def ownFacts (t : VariableTable) : Source → NullFacts
  | leftJoin block _ vs => (block.exposedFacts t).restrict vs
  | s => s.facts t

theorem ownFacts_about (t : VariableTable) (s : Source) : (s.ownFacts t).About s.produced := by
  cases s with
  | table source vs => exact ⟨List.filter_subset_self _, List.nil_subset _⟩
  | nested block vs => exact NullFacts.about_restrict
  | union index branches vs =>
    have h : ∀ f : NullFacts, (f.restrict vs).About (index :: vs) := fun f =>
      NullFacts.about_restrict.mono (List.subset_cons_self index vs)
    exact ⟨List.cons_subset.mpr ⟨List.mem_cons_self, (h _).1⟩, (h _).2⟩
  | leftJoin block on vs => exact NullFacts.about_restrict

theorem facts_eq_ownFacts {s : Source} (h : s.on? = none) : s.facts t = s.ownFacts t := by
  cases s with
  | leftJoin block on vs => simp [on?] at h
  | _ => rfl

/-- A left join may add nulls, so that only the facts about nulls remain. -/
theorem facts_eq_of_on {s : Source} (h : s.on?.isSome) : s.facts t = ⟨[], (s.ownFacts t).null⟩ := by
  cases s with
  | leftJoin block on vs => rfl
  | _ => simp [on?] at h

theorem facts_about (t : VariableTable) (s : Source) : (s.facts t).About s.produced := by
  cases hon : s.on? with
  | none => exact facts_eq_ownFacts hon ▸ ownFacts_about t s
  | some on =>
    rw [facts_eq_of_on (by simp [hon])]
    exact ⟨List.nil_subset _, (ownFacts_about t s).2⟩

/-- The facts of a source hold on every row that fits it. -/
theorem Fits.facts_holds {s : Source × Multiset (Row α)} (h : Fits row s)
    (hown : ∀ r ∈ s.2, (s.1.ownFacts t).Holds r) : (s.1.facts t).Holds row := by
  have habout := ownFacts_about t s.1
  cases hon : s.1.on? with
  | none =>
    rw [facts_eq_ownFacts hon]
    obtain ⟨r, hr, hmatch⟩ | ⟨hsome, -⟩ := h
    · exact (hown r hr).congr habout hmatch
    · simp [hon] at hsome
  | some on =>
    rw [facts_eq_of_on (by simp [hon])]
    refine ⟨fun _ hv => absurd hv List.not_mem_nil, ?_⟩
    obtain ⟨r, hr, hmatch⟩ | ⟨-, hnull⟩ := h
    · exact ((hown r hr).congr habout hmatch).2
    · exact fun v hv => hnull v (habout.2 hv)

theorem factsAll_holds {ss : List Source} (h : ∀ s ∈ ss, (s.facts t).Holds row) :
    (factsAll t ss).Holds row := by
  induction ss with
  | nil => exact NullFacts.holds_empty
  | cons s ss ih =>
    obtain ⟨hs, hss⟩ := List.forall_mem_cons.mp h
    exact NullFacts.holds_and.mpr ⟨hs, ih hss⟩

theorem factsAll_about (t : VariableTable) (ss : List Source) :
    (factsAll t ss).About (ss.flatMap produced) := by
  induction ss with
  | nil => exact ⟨List.nil_subset _, List.nil_subset _⟩
  | cons s ss ih =>
    rw [List.flatMap_cons]
    exact ((facts_about t s).mono (List.subset_append_left _ _)).and
      (ih.mono (List.subset_append_right _ _))

end Source

namespace Block

variable {db : Database α} {t : VariableTable} {b : Block}

/-- The facts of a block hold on every row that fits all sources, once the assignments are made. -/
theorem facts_holds (hscoped : b.Scoped)
    (hown : ∀ s ∈ b.sources, ∀ r ∈ sourceRows D db t s, (s.ownFacts t).Holds r)
    (hfits : ∀ s ∈ b.sources, Source.Fits row (s, sourceRows D db t s)) :
    (b.facts t).Holds (Assignment.run D b.assignments row) := by
  obtain ⟨exposed, sources, assignments, filters⟩ := b
  refine Assignment.foldl_addFacts_holds hscoped.assignments ?_ (Source.factsAll_about t sources)
  exact Source.factsAll_holds fun s hs => (hfits s hs).facts_holds (hown s hs)

theorem fits_of_mem_candidateRows (hapart : b.Apart) {row : Row α}
    (h : row ∈ b.candidateRows D db t) : ∃ base, row = Assignment.run D b.assignments base ∧
      ∀ s ∈ b.sources, Source.Fits base (s, sourceRows D db t s) := by
  obtain ⟨base, hbase, rfl⟩ := Multiset.mem_map.mp h
  refine ⟨base, rfl, ?_⟩
  rw [sourceRowsEach_eq_map] at hbase
  exact List.forall_mem_map.mp (Source.fits_of_mem_combine (hapart.separate D db t) hbase)

theorem candidateRows_facts_holds (hscoped : b.Scoped) (hapart : b.Apart)
    (hown : ∀ s ∈ b.sources, ∀ r ∈ sourceRows D db t s, (s.ownFacts t).Holds r) :
    ∀ row ∈ b.candidateRows D db t, (b.facts t).Holds row := by
  intro row hrow
  obtain ⟨base, rfl, hfits⟩ := fits_of_mem_candidateRows hapart hrow
  exact facts_holds hscoped hown hfits

theorem mem_rows {row : Row α} : row ∈ b.rows D db t ↔ ∃ full ∈ b.candidateRows D db t,
    Condition.AllHold D full b.filters ∧ row = full.restrict b.exposed := by
  rw [rows_eq_select, select, Multiset.mem_map]
  simp only [Multiset.mem_filter, and_assoc, eq_comm]

theorem rows_exposedFacts_holds (hscoped : b.Scoped) (hapart : b.Apart)
    (hown : ∀ s ∈ b.sources, ∀ r ∈ sourceRows D db t s, (s.ownFacts t).Holds r) :
    ∀ row ∈ b.rows D db t, (b.exposedFacts t).Holds row := by
  intro row hrow
  obtain ⟨full, hfull, hfilters, rfl⟩ := mem_rows.mp hrow
  have hfacts := candidateRows_facts_holds hscoped hapart hown full hfull
  have hboth := NullFacts.holds_and.mpr ⟨hfacts, hfilters.holds_facts⟩
  obtain ⟨exposed, sources, assignments, filters⟩ := b
  exact (hboth.restrict exposed).congr NullFacts.about_restrict
    fun v hv => Row.restrict_of_mem hv

theorem mem_branchRows {index : Variable} {n : Nat} {bs : List Block} {row : Row α}
    (h : row ∈ branchRows D db t index n bs) : ∃ k, ∃ b : Block, bs[k]? = some b ∧
      ∃ r ∈ b.rows D db t,
        row = r.assign index (some (D.constant (toString (n + k)) .integer)) := by
  induction bs generalizing n with
  | nil => exact absurd h (Multiset.notMem_zero row)
  | cons b bs ih =>
    obtain h | h := Multiset.mem_add.mp h
    · obtain ⟨r, hr, rfl⟩ := Multiset.mem_map.mp h
      exact ⟨0, b, rfl, r, hr, rfl⟩
    · obtain ⟨k, c, hc, r, hr, rfl⟩ := ih h
      exact ⟨k + 1, c, hc, r, hr, by rw [Nat.add_right_comm, Nat.add_assoc]⟩

theorem branchFacts_eq_map (t : VariableTable) (vs : List Variable) (bs : List Block) :
    branchFacts t vs bs =
      bs.map fun b => (b.exposedFacts t).and ⟨[], vs.filter (!b.exposed.contains ·)⟩ := by
  induction bs with
  | nil => rfl
  | cons b bs ih => rw [branchFacts, ih, List.map_cons]

theorem union_ownFacts_holds {index : Variable} {bs : List Block} {vs : List Variable}
    (hindex : index ∉ vs) (hbs : ∀ b ∈ bs, ∀ row ∈ b.rows D db t, (b.exposedFacts t).Holds row) :
    ∀ row ∈ branchRows D db t index 0 bs, ((Source.union index bs vs).ownFacts t).Holds row := by
  intro row hrow
  obtain ⟨k, b, hb, r, hr, rfl⟩ := mem_branchRows hrow
  have hb := List.mem_of_getElem? hb
  have hpadded : (⟨[], vs.filter (!b.exposed.contains ·)⟩ : NullFacts).Holds r := by
    refine ⟨fun _ hv => absurd hv List.not_mem_nil, fun v hv => ?_⟩
    obtain ⟨full, -, -, rfl⟩ := mem_rows.mp hr
    exact Row.take_of_not_mem (by simpa using (List.mem_filter.mp hv).2)
  have hbranch := NullFacts.holds_and.mpr ⟨hbs b hb r hr, hpadded⟩
  have hany : (NullFacts.any (branchFacts t vs bs)).Holds r := by
    rw [branchFacts_eq_map]
    exact NullFacts.holds_any ⟨_, List.mem_map_of_mem hb, hbranch⟩
  have hrest : ((NullFacts.any (branchFacts t vs bs)).restrict vs).Holds
      (r.assign index (some (D.constant (toString (0 + k)) .integer))) :=
    (hany.restrict vs).congr NullFacts.about_restrict
      fun v hv => Row.assign_of_ne fun heq => hindex (heq ▸ hv)
  refine ⟨List.forall_mem_cons.mpr ⟨?_, hrest.1⟩, hrest.2⟩
  rw [Row.assign_self]
  exact Option.some_ne_none _

theorem table_ownFacts_holds {source : TableSource} {vs : List Variable}
    (h : db.Respects t [(source, vs)]) :
    ∀ row ∈ (db source).map t.row, ((Source.table source vs).ownFacts t).Holds row := by
  intro row hrow
  obtain ⟨columns, hcolumns, rfl⟩ := Multiset.mem_map.mp hrow
  refine ⟨fun v hv => ?_, fun _ hv => absurd hv List.not_mem_nil⟩
  obtain ⟨hv, hinfo⟩ := List.mem_filter.mp hv
  split at hinfo
  · rename_i name type heq
    rw [VariableTable.row, heq]
    exact h (source, vs) (List.mem_singleton_self _) v hv name type heq columns hcolumns
  · cases hinfo

theorem ownFacts_holds {s : Source} (hs : s.Proper db t)
    (hblocks : ∀ c ∈ s.blocks, ∀ row ∈ c.rows D db t, (c.exposedFacts t).Holds row) :
    ∀ r ∈ sourceRows D db t s, (s.ownFacts t).Holds r := by
  cases s with
  | table source vs => exact table_ownFacts_holds hs.respects
  | nested b vs => exact fun r hr => (hblocks b (List.mem_singleton_self b) r hr).restrict vs
  | union index bs vs => exact union_ownFacts_holds hs.wellScoped.1 hblocks
  | leftJoin b on vs => exact fun r hr => (hblocks b (List.mem_singleton_self b) r hr).restrict vs

/-- The facts about a block hold on all rows that it exposes. -/
theorem exposedFacts_holds (D : ValueDomain α) (b : Block) (hb : b.Proper db t) :
    ∀ row ∈ b.rows D db t, (b.exposedFacts t).Holds row := by
  induction b using Block.induction with
  | step b ih =>
    refine rows_exposedFacts_holds hb.wellScoped hb.apart fun s hs => ?_
    have hproper := hb.source hs
    exact ownFacts_holds hproper fun c hc => ih s hs c hc (.block hproper hc)

/-- What the null facts of a block say is true: on the rows of its sources and assignments, on those
that it exposes, and on what each of its sources contributes. A left join also contributes a row of
nulls. -/
structure FactsTrue (D : ValueDomain α) (db : Database α) (t : VariableTable) (b : Block) :
    Prop where
  candidates : ∀ row ∈ b.candidateRows D db t, (b.facts t).Holds row
  exposed : ∀ row ∈ b.rows D db t, (b.exposedFacts t).Holds row
  contributed : ∀ s ∈ b.sources, ∀ row, Source.Fits row (s, sourceRows D db t s) →
    (s.facts t).Holds row
  sources : ∀ s ∈ b.sources, ∀ row ∈ b.candidateRows D db t, (s.facts t).Holds row

theorem Proper.factsTrue (D : ValueDomain α) (hb : b.Proper db t) : b.FactsTrue D db t := by
  have hown : ∀ s ∈ b.sources, ∀ r ∈ sourceRows D db t s, (s.ownFacts t).Holds r := fun s hs =>
    ownFacts_holds (hb.source hs) fun c hc => exposedFacts_holds D c (.block (hb.source hs) hc)
  have hcontributed : ∀ s ∈ b.sources, ∀ row, Source.Fits row (s, sourceRows D db t s) →
      (s.facts t).Holds row := fun s hs row hfits => hfits.facts_holds (hown s hs)
  refine ⟨candidateRows_facts_holds hb.wellScoped hb.apart hown, exposedFacts_holds D b hb,
    hcontributed, fun s hs row hrow => ?_⟩
  -- Assignments come after the sources and leave their variables as they are.
  obtain ⟨base, rfl, hfits⟩ := fits_of_mem_candidateRows hb.apart hrow
  refine (hcontributed s hs base (hfits s hs)).congr (Source.facts_about t s) fun v hv => ?_
  exact hb.wellScoped.assignments.run_eq (List.mem_flatMap.mpr ⟨s, hs, hv⟩)

/-- Null facts are sound. In a well-scoped block whose sources bind different variables, over a
database that has a value in each column declared to have one, the facts of the block, of all blocks
in it and of their sources are true of every row; and where a condition is true, its facts are. -/
theorem facts_sound (D : ValueDomain α) (db : Database α) (t : VariableTable) (b : Block)
    (hvalid : b.validate = .ok ()) (hapart : b.Apart) (hdb : db.Respects t b.tables) :
    b.Everywhere (FactsTrue D db t) ∧
      ∀ (c : Condition) (row : Row α), c.eval D row = .yes → (c.facts true).Holds row := by
  have hproper : b.Proper db t := ⟨(validate_eq_ok b).mp hvalid, hapart, hdb⟩
  refine ⟨?_, fun c row h => Condition.holds_facts true c h⟩
  clear hvalid hapart hdb
  induction b using Block.induction with
  | step b ih =>
    refine .intro (hproper.factsTrue D) fun s hs c hc => ?_
    exact ih s hs c hc (.block (hproper.source hs) hc)

/-- Items from either of two shops, the second of which has no prices, with the discounts there are:
the price may be null although no price of the first shop is, and so may the discount. -/
theorem facts_sound_shops :
    let t : VariableTable := [⟨.derived, .integer, false⟩, ⟨.column "id", .string, false⟩,
      ⟨.column "price", .string, false⟩, ⟨.column "id", .string, false⟩,
      ⟨.column "discount", .string, false⟩]
    let first : Block := ⟨[1, 2], [.table (.table "first") [1, 2]], [], []⟩
    let second : Block := ⟨[1], [.table (.table "second") [1]], [], []⟩
    let discounts : Block := ⟨[3, 4], [.table (.table "discounts") [3, 4]], [], []⟩
    let b : Block := ⟨[1, 2, 4, 5], [.union 0 [first, second] [1, 2],
      .leftJoin discounts [.sameVariable 1 3] [3, 4]],
        [⟨5, .coalesce [.column 4, .ofText "0"]⟩], []⟩
    let D : ValueDomain String := ⟨fun text _ => text, String.join, compare, (· == ·), (· == ·)⟩
    let db : Database String := fun _ => {fun _ => some "7"}
    b.validate = .ok () ∧ b.Apart ∧ db.Respects t b.tables ∧
      b.exposedFacts t = ⟨[5, 1], []⟩ ∧ ∀ row ∈ b.rows D db t, row 5 ≠ none ∧ row 1 ≠ none := by
  intro t first second discounts b D db
  have hapart : b.Apart := by
    simp [b, first, second, discounts, Apart, ApartSources, ApartSource, ApartBranches,
      Source.produced]
  have hdb : db.Respects t b.tables := by
    intro table _ v _ name type _ columns hcolumns
    obtain rfl := Multiset.mem_singleton.mp hcolumns
    exact Option.some_ne_none _
  have hfacts : b.exposedFacts t = ⟨[5, 1], []⟩ := by decide
  refine ⟨rfl, hapart, hdb, hfacts, fun row hrow => ?_⟩
  obtain ⟨htrue, -⟩ := (facts_sound D db t b rfl hapart hdb).1
  have hholds := htrue.exposed row hrow
  rw [hfacts] at hholds
  exact ⟨hholds.1 5 (by decide), hholds.1 1 (by decide)⟩

end Block

end VirtualGraph
