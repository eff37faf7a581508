import Mathlib.Logic.Function.Basic
import VirtualGraph.Block.Optimise
import VirtualGraph.Proofs.Block.Normal

/-!
# Reports of changes

Each step of optimisation reports a change exactly if it gives another block. A value that is put
together from two parts is another one exactly if one of the parts is, so this passes from the
conditions to the block. Only for a list of conditions that all have to hold does it need a reason:
each of them is revised first and the list after that, and the second step might lead back to where
the first one started. Simplification does not, since all lists that it gives are normal, and of a
normal list the first step changes nothing.

That the loop stops where no change is reported therefore makes no difference to its result.
-/

namespace VirtualGraph

namespace Change

variable {α β γ : Type} {x y : α}

@[simp] theorem getD_unchanged (x : α) : unchanged.getD x = x := rfl

@[simp] theorem getD_changed (x y : α) : (changed y).getD x = y := rfl

theorem getD_map (f : α → β) (c : Change α) (x : α) : (c.map f).getD (f x) = f (c.getD x) := by
  cases c <;> rfl

theorem getD_both (f : α → β → γ) (x : α) (y : β) (c : Change α) (d : Change β) :
    (both f x y c d).getD (f x y) = f (c.getD x) (d.getD y) := by
  cases c <;> cases d <;> rfl

theorem getD_andThen (x : α) (c : Change α) (step : α → Change α) :
    (andThen x c step).getD x = (step (c.getD x)).getD (c.getD x) := by
  rw [andThen]
  cases step (c.getD x) <;> rfl

variable [DecidableEq α] [DecidableEq β] [DecidableEq γ]

@[simp] theorem compare_self (x : α) : compare x x = unchanged := if_pos rfl

theorem compare_of_ne (h : x ≠ y) : compare x y = changed y := if_neg h

@[simp] theorem compare_eq_unchanged : compare x y = unchanged ↔ x = y := by
  rw [compare]
  split <;> simp [*]

theorem eq_of_compare_eq_changed {z : α} (h : compare x y = changed z) : z = y ∧ z ≠ x := by
  rw [compare] at h
  split at h
  · cases h
  · rename_i hne
    cases h
    exact ⟨rfl, Ne.symm hne⟩

@[simp] theorem getD_compare (x y : α) : (compare x y).getD x = y := by
  rw [compare]
  split
  · assumption
  · rfl

theorem map_compare {f : α → β} (hf : Function.Injective f) (x y : α) :
    (compare x y).map f = compare (f x) (f y) := by
  by_cases h : x = y
  · subst h
    rw [compare_self, compare_self, map]
  · rw [compare_of_ne h, compare_of_ne (hf.ne h), map]

theorem both_compare {f : α → β → γ} (hf : Function.Injective2 f) (x x' : α) (y y' : β) :
    both f x y (compare x x') (compare y y') = compare (f x y) (f x' y') := by
  by_cases hx : x = x'
  · subst hx
    by_cases hy : y = y'
    · subst hy
      rw [compare_self, compare_self, compare_self, both]
    · rw [compare_self, compare_of_ne hy, compare_of_ne fun h => hy (hf h).2]
      rfl
  · rw [compare_of_ne hx, compare_of_ne fun h => hx (hf h).1]
    cases hy : compare y y' with
    | unchanged =>
      rw [compare_eq_unchanged.mp hy]
      rfl
    | changed z =>
      rw [(eq_of_compare_eq_changed hy).1]
      rfl

theorem cons_compare (x y : α) (xs ys : List α) :
    both List.cons x xs (compare x y) (compare xs ys) = compare (x :: xs) (y :: ys) :=
  both_compare (fun _ _ _ _ => List.cons.inj) x y xs ys

theorem each_compare (f : α → α) (xs : List α) :
    each (fun x => compare x (f x)) xs = compare xs (xs.map f) := by
  induction xs with
  | nil => rfl
  | cons x xs ih => rw [each, ih, cons_compare, List.map_cons]

/-- A second step that leads back to the start does so only if the first one stayed there. -/
theorem andThen_compare {f : α → α} (h : f y = x → y = x) :
    andThen x (compare x y) (fun z => compare z (f z)) = compare x (f y) := by
  rw [andThen, getD_compare]
  by_cases hf : y = f y
  · rw [← hf, compare_self]
  · rw [compare_of_ne hf]
    by_cases hx : x = f y
    · exact absurd ((h hx.symm).trans hx) hf
    · rw [compare_of_ne hx]

end Change

namespace Revision

variable {Known : Type} (r : Revision Known) (known : Known) (cs : List Condition)

theorem each_reviseOne :
    Change.each (r.reviseOne known) cs = .compare cs (cs.map (r.condition known)) :=
  Change.each_compare _ cs

theorem getD_reviseAll :
    (r.reviseAll known cs).getD cs = r.conditions (cs.map (r.condition known)) := by
  rw [reviseAll, Change.getD_andThen, each_reviseOne, Change.getD_compare, Change.getD_compare]

variable {r known cs}

theorem reviseAll_eq
    (h : r.conditions (cs.map (r.condition known)) = cs → cs.map (r.condition known) = cs) :
    r.reviseAll known cs = .compare cs (r.conditions (cs.map (r.condition known))) := by
  rw [reviseAll, each_reviseOne, Change.andThen_compare h]

end Revision

theorem Assignment.revise_eq {step : Condition → Change Condition} {a : Assignment} {x : Scalar}
    (h : a.value.revise step = .compare a.value x) :
    a.revise step = .compare a ⟨a.target, x⟩ := by
  rw [revise, h]
  exact Change.map_compare (fun _ _ h => (Assignment.mk.inj h).2) a.value x

namespace Block

variable {Known : Type} {r : Revision Known} {known : Known}

/-- A block changes exactly if its sources, its assignments or its filters do. -/
theorem revise_eq {exposed : List Variable} {ss ss' : List Source} {as as' : List Assignment}
    {fs fs' : List Condition} (hknown : r.inBlock ⟨exposed, ss, as, fs⟩ = known)
    (hsources : Source.reviseEach r known ss = .compare ss ss')
    (hassignments : Change.each (Assignment.revise (r.reviseOne known)) as = .compare as as')
    (hfilters : r.reviseAll known fs = .compare fs fs') :
    revise r ⟨exposed, ss, as, fs⟩ = .compare ⟨exposed, ss, as, fs⟩ ⟨exposed, ss', as', fs'⟩ := by
  rw [revise, hknown, hsources, hassignments, hfilters,
    Change.both_compare fun _ _ _ _ => Prod.mk.inj]
  refine Change.both_compare (fun ss ss' rest rest' h => ?_) ss ss' (as, fs) (as', fs')
  obtain ⟨-, hsources, hassignments, hfilters⟩ := Block.mk.inj h
  exact ⟨hsources, Prod.ext hassignments hfilters⟩

theorem getD_revise (r : Revision Known) (exposed : List Variable) (ss : List Source)
    (as : List Assignment) (fs : List Condition) :
    (revise r ⟨exposed, ss, as, fs⟩).getD ⟨exposed, ss, as, fs⟩ =
      let known := r.inBlock ⟨exposed, ss, as, fs⟩
      ⟨exposed, (Source.reviseEach r known ss).getD ss,
        (Change.each (Assignment.revise (r.reviseOne known)) as).getD as,
        (r.reviseAll known fs).getD fs⟩ := by
  rw [revise]
  refine (Change.getD_both (fun ss rest => mk exposed ss rest.1 rest.2) ss (as, fs) _ _).trans ?_
  rw [Change.getD_both]

theorem reviseNested_eq {b b' : Block} {vars : List Variable} (h : b.revise r = .compare b b') :
    Source.revise r known (.nested b vars) = .compare (.nested b vars) (.nested b' vars) := by
  rw [Source.revise, h]
  exact Change.map_compare (fun _ _ h => (Source.nested.inj h).1) b b'

theorem reviseUnion_eq {index : Variable} {bs bs' : List Block} {vars : List Variable}
    (h : reviseEach r bs = .compare bs bs') :
    Source.revise r known (.union index bs vars) =
      .compare (.union index bs vars) (.union index bs' vars) := by
  rw [Source.revise, h]
  exact Change.map_compare (fun _ _ h => (Source.union.inj h).2.1) bs bs'

/-- A left join changes exactly if its block or its conditions do. -/
theorem reviseLeftJoin_eq {b b' : Block} {on on' : List Condition} {vars : List Variable}
    (hblock : b.revise r = .compare b b')
    (hon : r.reviseAll (r.inJoin known b' vars) on = .compare on on') :
    Source.revise r known (.leftJoin b on vars) =
      .compare (.leftJoin b on vars) (.leftJoin b' on' vars) := by
  rw [Source.revise, hblock, Change.getD_compare, hon]
  refine Change.both_compare (fun b b' on on' h => ?_) b b' on on'
  exact ⟨(Source.leftJoin.inj h).1, (Source.leftJoin.inj h).2.1⟩

end Block

/-! ### Simplification -/

namespace Condition

theorem simplifyEach_eq_map (cs : List Condition) : simplifyEach cs = cs.map simplify := by
  induction cs with
  | nil => rfl
  | cons c cs ih => rw [simplifyEach, ih, List.map_cons]

theorem reviseAll_simplifying (cs : List Condition) :
    Revision.simplifying.reviseAll () cs = .compare cs (simplifyList cs) := by
  have heach : cs.map (Revision.simplifying.condition ()) = simplifyEach cs :=
    (simplifyEach_eq_map cs).symm
  rw [Revision.reviseAll_eq, heach]
  · rfl
  · rw [heach]
    intro hlist
    -- A list that both steps together lead back to is a result of the second one.
    have hnormal : NormalList cs := hlist ▸ normalList_simplifyAll (simplifyEach cs)
    exact hnormal.simplifyEach_eq

end Condition

namespace Scalar

theorem case_injective2 : Function.Injective2 case := fun _ _ _ _ => case.inj

mutual

theorem revise_simplify : ∀ x : Scalar,
    x.revise (fun c => .compare c c.simplify) = .compare x x.simplify
  | column _ => (Change.compare_self _).symm
  | constant _ _ => (Change.compare_self _).symm
  | null => (Change.compare_self _).symm
  | concat items => by
    rw [revise, reviseEach_simplify items, Change.map_compare fun _ _ => concat.inj, simplify]
  | coalesce items => by
    rw [revise, reviseEach_simplify items, Change.map_compare fun _ _ => coalesce.inj, simplify]
  | case branches otherwise => by
    rw [revise, reviseBranches_simplify branches, revise_simplify otherwise,
      Change.both_compare case_injective2, simplify]

theorem reviseEach_simplify : ∀ xs : List Scalar,
    reviseEach (fun c => .compare c c.simplify) xs = .compare xs (simplifyEach xs)
  | [] => (Change.compare_self _).symm
  | x :: rest => by
    rw [reviseEach, revise_simplify x, reviseEach_simplify rest,
      Change.cons_compare, simplifyEach]

theorem reviseBranches_simplify : ∀ branches : List (Condition × Scalar),
    reviseBranches (fun c => .compare c c.simplify) branches =
      .compare branches (simplifyBranches branches)
  | [] => (Change.compare_self _).symm
  | (c, x) :: rest => by
    rw [reviseBranches, revise_simplify x, reviseBranches_simplify rest,
      Change.both_compare fun _ _ _ _ => Prod.mk.inj,
      Change.cons_compare, simplifyBranches]

end

end Scalar

theorem Assignment.reviseEach_simplify (as : List Assignment) :
    Change.each (revise fun c => .compare c c.simplify) as = .compare as (as.map simplify) := by
  have heach : revise (fun c => .compare c c.simplify) = fun a => .compare a a.simplify :=
    funext fun a => revise_eq (Scalar.revise_simplify a.value)
  rw [heach, Change.each_compare]

namespace Block

mutual

theorem revise_simplifying : ∀ b : Block, b.revise .simplifying = .compare b b.simplify
  | ⟨_, sources, assignments, filters⟩ =>
    revise_eq rfl (reviseSources_simplifying sources) (Assignment.reviseEach_simplify assignments)
      (Condition.reviseAll_simplifying filters)

theorem reviseEach_simplifying : ∀ bs : List Block,
    reviseEach .simplifying bs = .compare bs (simplifyEach bs)
  | [] => (Change.compare_self _).symm
  | b :: rest => by
    rw [reviseEach, revise_simplifying b, reviseEach_simplifying rest,
      Change.cons_compare, simplifyEach]

theorem reviseSource_simplifying : ∀ s : Source, s.revise .simplifying () = .compare s s.simplify
  | .table _ _ => (Change.compare_self _).symm
  | .nested block _ => reviseNested_eq (revise_simplifying block)
  | .union _ branches _ => reviseUnion_eq (reviseEach_simplifying branches)
  | .leftJoin block on _ =>
    reviseLeftJoin_eq (revise_simplifying block) (Condition.reviseAll_simplifying on)

theorem reviseSources_simplifying : ∀ ss : List Source,
    Source.reviseEach .simplifying () ss = .compare ss (Source.simplifyEach ss)
  | [] => (Change.compare_self _).symm
  | s :: rest => by
    rw [Source.reviseEach, reviseSource_simplifying s, reviseSources_simplifying rest,
      Change.cons_compare, Source.simplifyEach]

end

end Block

/-! ### Simplifying twice -/

namespace Condition

theorem simplify_simplify (c : Condition) : c.simplify.simplify = c.simplify :=
  (normal_simplify c).simplify_eq

theorem simplifyList_simplifyList (cs : List Condition) :
    simplifyList (simplifyList cs) = simplifyList cs := by
  have hnormal : NormalList (simplifyList cs) := normalList_simplifyAll _
  rw [simplifyList, hnormal.simplifyEach_eq, hnormal.simplifyAll_eq]

/-- What lists of conditions that all have to hold are like after simplification. -/
theorem NormalList.members {cs : List Condition} (h : NormalList cs) :
    always ∉ cs ∧ (∀ items, and items ∉ cs) ∧ cs.Nodup ∧ (never ∈ cs → cs = [never]) := by
  obtain rfl | ⟨hnodup, hmembers⟩ := h
  · refine ⟨by decide, fun items hitems => ?_, by decide, fun _ => rfl⟩
    cases List.mem_singleton.mp hitems
  · refine ⟨fun h => (hmembers _ h).1, fun items hitems => ?_, hnodup, fun h => ?_⟩
    · cases (hmembers _ hitems).2
    · exact (hmembers _ h).1.elim

end Condition

namespace Scalar

mutual

theorem simplify_simplify : ∀ x : Scalar, x.simplify.simplify = x.simplify
  | column _ => rfl
  | constant _ _ => rfl
  | null => rfl
  | concat items => congrArg concat (simplifyEach_simplifyEach items)
  | coalesce items => congrArg coalesce (simplifyEach_simplifyEach items)
  | case branches otherwise =>
    congrArg₂ case (simplifyBranches_simplifyBranches branches) (simplify_simplify otherwise)

theorem simplifyEach_simplifyEach : ∀ xs : List Scalar,
    simplifyEach (simplifyEach xs) = simplifyEach xs
  | [] => rfl
  | x :: rest => congrArg₂ List.cons (simplify_simplify x) (simplifyEach_simplifyEach rest)

theorem simplifyBranches_simplifyBranches : ∀ branches : List (Condition × Scalar),
    simplifyBranches (simplifyBranches branches) = simplifyBranches branches
  | [] => rfl
  | (c, x) :: rest =>
    congrArg₂ List.cons (congrArg₂ Prod.mk c.simplify_simplify (simplify_simplify x))
      (simplifyBranches_simplifyBranches rest)

end

end Scalar

theorem Assignment.map_simplify_simplify (as : List Assignment) :
    (as.map simplify).map simplify = as.map simplify := by
  rw [List.map_map]
  exact List.map_congr_left fun a _ => congrArg (mk a.target) a.value.simplify_simplify

namespace Block

mutual

/-- Simplifying a second time changes nothing. -/
theorem simplify_simplify : ∀ b : Block, b.simplify.simplify = b.simplify
  | ⟨exposed, sources, assignments, filters⟩ => by
    rw [simplify, simplify, simplifySources_simplifySources sources,
      Assignment.map_simplify_simplify, Condition.simplifyList_simplifyList]

theorem simplifyEach_simplifyEach : ∀ bs : List Block,
    simplifyEach (simplifyEach bs) = simplifyEach bs
  | [] => rfl
  | b :: rest => congrArg₂ List.cons (simplify_simplify b) (simplifyEach_simplifyEach rest)

theorem simplifySource_simplifySource : ∀ s : Source, s.simplify.simplify = s.simplify
  | .table _ _ => rfl
  | .nested block vars => congrArg (Source.nested · vars) (simplify_simplify block)
  | .union index branches vars =>
    congrArg (Source.union index · vars) (simplifyEach_simplifyEach branches)
  | .leftJoin block on vars =>
    congrArg₂ (Source.leftJoin · · vars) (simplify_simplify block)
      (Condition.simplifyList_simplifyList on)

theorem simplifySources_simplifySources : ∀ ss : List Source,
    Source.simplifyEach (Source.simplifyEach ss) = Source.simplifyEach ss
  | [] => rfl
  | s :: rest =>
    congrArg₂ List.cons (simplifySource_simplifySource s) (simplifySources_simplifySources rest)

end

/-- One pass of simplification leaves nothing to simplify. It makes every condition normal and keeps
normal ones. Lists of conditions that all have to hold come out without constants, apart from
`never` alone, without conjunctions and without repetitions. Of a block it reports a change exactly
if it gives another block, and no change of that one. -/
theorem simplify_reaches_normal_form :
    (∀ c : Condition, c.simplify.Normal) ∧
    (∀ c : Condition, c.Normal → c.simplify = c) ∧
    (∀ cs : List Condition,
      Condition.simplifyAll (Condition.simplifyAll cs) = Condition.simplifyAll cs ∧
      .always ∉ Condition.simplifyAll cs ∧
      (∀ items, .and items ∉ Condition.simplifyAll cs) ∧
      (Condition.simplifyAll cs).Nodup ∧
      (.never ∈ Condition.simplifyAll cs → Condition.simplifyAll cs = [.never])) ∧
    ∀ b : Block, (b.revise .simplifying = .unchanged ↔ b.simplify = b) ∧
      ∀ b' : Block, b.revise .simplifying = .changed b' →
        b' = b.simplify ∧ b' ≠ b ∧ b'.revise .simplifying = .unchanged := by
  refine ⟨Condition.normal_simplify, fun c hc => hc.simplify_eq, fun cs => ?_, fun b => ⟨?_, ?_⟩⟩
  · have hnormal := Condition.normalList_simplifyAll cs
    exact ⟨hnormal.simplifyAll_eq, hnormal.members⟩
  · rw [revise_simplifying, Change.compare_eq_unchanged, eq_comm]
  · intro b' hb'
    rw [revise_simplifying] at hb'
    obtain ⟨rfl, hne⟩ := Change.eq_of_compare_eq_changed hb'
    refine ⟨rfl, hne, ?_⟩
    rw [revise_simplifying, simplify_simplify, Change.compare_self]

/-- Conditions in a filter, in a left join, in the block nested in it and in a case: all of them are
simplified at once, down to a conjunction that is opened into the list around it. -/
theorem simplify_reaches_normal_form_managers :
    let c := Condition.or [.and [.isNull 0, .isNull 1], .not (.sameVariable 0 1)]
    let managers (fs : List Condition) : Block := ⟨[2], [.table (.table "staff") [2]], [], fs⟩
    let b : Block := ⟨[0, 3], [.table (.table "staff") [0, 1],
      .leftJoin (managers [.or [.notNull 2, .never]])
        [.not (.not (.sameVariable 1 2)), .or [.isNull 0, .and [.isNull 0, .isNull 1]]] [2]],
      [⟨3, .case [(.not .always, .column 0)] .null⟩],
      [.not (.compare .eq (.column 0) (.column 1)), .and [.notNull 0, .and [.always, .notNull 1]]]⟩
    let b' : Block := ⟨[0, 3], [.table (.table "staff") [0, 1],
      .leftJoin (managers [.notNull 2]) [.sameVariable 1 2, .isNull 0] [2]],
      [⟨3, .case [(.never, .column 0)] .null⟩],
      [.compare .ne (.column 0) (.column 1), .notNull 0, .notNull 1]⟩
    c.Normal ∧ c.simplify = c ∧ b.revise .simplifying = .changed b' ∧ b' ≠ b ∧
      b'.revise .simplifying = .unchanged := by
  intro c managers b b'
  have hc : c.Normal := by decide
  have hb : b.revise .simplifying = .changed b' := by decide
  obtain ⟨-, hkeeps, -, hblocks⟩ := simplify_reaches_normal_form
  obtain ⟨-, hne, hunchanged⟩ := (hblocks b).2 b' hb
  exact ⟨hc, hkeeps c hc, hb, hne, hunchanged⟩

end Block

/-! ### Deciding null checks -/

namespace Condition

theorem resolveNullsEach_eq_map (f : NullFacts) (cs : List Condition) :
    (resolveNullsEach f cs).1 = cs.map fun c => (c.resolveNulls f).1 := by
  induction cs with
  | nil => rfl
  | cons c cs ih => rw [List.map_cons, ← ih, resolveNullsEach]

theorem reviseAll_resolving (t : VariableTable) (f : NullFacts) (cs : List Condition) :
    (Revision.resolving t).reviseAll f cs = .compare cs (resolveNullsEach f cs).1 := by
  rw [resolveNullsEach_eq_map]
  exact Revision.reviseAll_eq id

end Condition

namespace Scalar

variable (f : NullFacts)

mutual

theorem revise_resolveNulls : ∀ x : Scalar,
    x.revise (fun c => .compare c (c.resolveNulls f).1) = .compare x (x.resolveNulls f).1
  | column _ => (Change.compare_self _).symm
  | constant _ _ => (Change.compare_self _).symm
  | null => (Change.compare_self _).symm
  | concat items => by
    rw [revise, reviseEach_resolveNulls items, Change.map_compare fun _ _ => concat.inj,
      resolveNulls]
  | coalesce items => by
    rw [revise, reviseEach_resolveNulls items, Change.map_compare fun _ _ => coalesce.inj,
      resolveNulls]
  | case branches otherwise => by
    rw [revise, reviseBranches_resolveNulls branches, revise_resolveNulls otherwise,
      Change.both_compare case_injective2, resolveNulls]

theorem reviseEach_resolveNulls : ∀ xs : List Scalar,
    reviseEach (fun c => .compare c (c.resolveNulls f).1) xs =
      .compare xs (resolveNullsEach f xs).1
  | [] => (Change.compare_self _).symm
  | x :: rest => by
    rw [reviseEach, revise_resolveNulls x, reviseEach_resolveNulls rest, Change.cons_compare,
      resolveNullsEach]

theorem reviseBranches_resolveNulls : ∀ branches : List (Condition × Scalar),
    reviseBranches (fun c => .compare c (c.resolveNulls f).1) branches =
      .compare branches (resolveNullsBranches f branches).1
  | [] => (Change.compare_self _).symm
  | (c, x) :: rest => by
    rw [reviseBranches, revise_resolveNulls x, reviseBranches_resolveNulls rest,
      Change.both_compare fun _ _ _ _ => Prod.mk.inj, Change.cons_compare, resolveNullsBranches]

end

end Scalar

theorem Assignment.reviseEach_resolveNulls (f : NullFacts) (as : List Assignment) :
    Change.each (revise fun c => .compare c (c.resolveNulls f).1) as =
      .compare as (resolveNullsEach f as).1 := by
  induction as with
  | nil => rfl
  | cons a as ih =>
    rw [Change.each, ih, revise_eq (Scalar.revise_resolveNulls f a.value)]
    exact Change.cons_compare _ _ _ _

namespace Block

variable (t : VariableTable)

mutual

theorem revise_resolving : ∀ b : Block, b.revise (.resolving t) = .compare b (b.resolveNulls t).1
  | ⟨_, sources, assignments, filters⟩ =>
    revise_eq rfl (reviseSources_resolving _ sources)
      (Assignment.reviseEach_resolveNulls _ assignments) (Condition.reviseAll_resolving t _ filters)

theorem reviseEach_resolving : ∀ bs : List Block,
    reviseEach (.resolving t) bs = .compare bs (resolveNullsEach t bs).1
  | [] => (Change.compare_self _).symm
  | b :: rest => by
    rw [reviseEach, revise_resolving b, reviseEach_resolving rest, Change.cons_compare,
      resolveNullsEach]

theorem reviseSource_resolving (f : NullFacts) : ∀ s : Source,
    s.revise (.resolving t) f = .compare s (s.resolveNulls t f).1
  | .table _ _ => (Change.compare_self _).symm
  | .nested block _ => reviseNested_eq (revise_resolving block)
  | .union _ branches _ => reviseUnion_eq (reviseEach_resolving branches)
  | .leftJoin block on _ =>
    reviseLeftJoin_eq (revise_resolving block) (Condition.reviseAll_resolving t _ on)

theorem reviseSources_resolving (f : NullFacts) : ∀ ss : List Source,
    Source.reviseEach (.resolving t) f ss = .compare ss (Source.resolveNullsEach t f ss).1
  | [] => (Change.compare_self _).symm
  | s :: rest => by
    rw [Source.reviseEach, reviseSource_resolving f s, reviseSources_resolving f rest,
      Change.cons_compare, Source.resolveNullsEach]

end

/-! ### Both steps together -/

/-- What both steps make of a block. -/
def pass (eliminate : Bool) (b : Block) : Block :=
  (if eliminate then (b.resolveNulls t).1 else b).simplify

theorem getD_round (eliminate : Bool) (b : Block) :
    (b.round t eliminate).getD b = b.pass t eliminate := by
  rw [round, Change.getD_andThen, revise_simplifying, Change.getD_compare]
  cases eliminate with
  | false => rfl
  | true => rw [if_pos rfl, revise_resolving, Change.getD_compare, pass, if_pos rfl]

theorem optimise_of_unchanged {eliminate : Bool} {b : Block}
    (h : b.round t eliminate = .unchanged) (passes : Nat) : b.optimise t eliminate passes = b := by
  cases passes with
  | zero => rfl
  | succ passes => rw [optimise, h]

/-- Where no change is reported, another round would change nothing. -/
theorem optimise_succ (eliminate : Bool) (passes : Nat) (b : Block) :
    b.optimise t eliminate (passes + 1) = (b.pass t eliminate).optimise t eliminate passes := by
  rw [← getD_round]
  cases h : b.round t eliminate with
  | unchanged => rw [optimise_of_unchanged t h, Change.getD_unchanged, optimise_of_unchanged t h]
  | changed next => rw [optimise, h, Change.getD_changed]

end Block

end VirtualGraph
