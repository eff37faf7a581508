import Mathlib.Logic.Function.Iterate
import VirtualGraph.Proofs.Block.Revision

/-!
# Convergence of optimisation

The number of null checks in a block bounds how often the two steps of optimisation can alternate.
Simplification adds no check, and a round after the first one starts from a block that is
simplified, so that it changes something only if it decides a check, which is then gone. With one
round more than there are checks the loop ends at a block that neither step changes.
-/

namespace VirtualGraph

/-! ### Counting null checks -/

mutual

/-- The number of null checks in a scalar. -/
def Scalar.nullChecks : Scalar → Nat
  | .column _ => 0
  | .constant _ _ => 0
  | .null => 0
  | .concat items => Scalar.nullChecksAll items
  | .coalesce items => Scalar.nullChecksAll items
  | .case branches otherwise => Scalar.nullChecksBranches branches + Scalar.nullChecks otherwise
termination_by structural x => x

def Scalar.nullChecksAll : List Scalar → Nat
  | [] => 0
  | x :: rest => Scalar.nullChecks x + Scalar.nullChecksAll rest
termination_by structural x => x

def Scalar.nullChecksBranches : List (Condition × Scalar) → Nat
  | [] => 0
  | (c, x) :: rest =>
    Condition.nullChecks c + Scalar.nullChecks x + Scalar.nullChecksBranches rest
termination_by structural x => x

/-- The number of null checks in a condition, those in its scalars among them. -/
def Condition.nullChecks : Condition → Nat
  | .always => 0
  | .never => 0
  | .and items => Condition.nullChecksAll items
  | .or items => Condition.nullChecksAll items
  | .not inner => Condition.nullChecks inner
  | .compare _ l r => Scalar.nullChecks l + Scalar.nullChecks r
  | .sameVariable _ _ => 0
  | .sameValue l r => Scalar.nullChecks l + Scalar.nullChecks r
  | .isNull _ => 1
  | .langMatches x _ => Scalar.nullChecks x
  | .like x _ => Scalar.nullChecks x
termination_by structural x => x

def Condition.nullChecksAll : List Condition → Nat
  | [] => 0
  | c :: rest => Condition.nullChecks c + Condition.nullChecksAll rest
termination_by structural x => x

end

def Assignment.nullChecksAll : List Assignment → Nat
  | [] => 0
  | a :: rest => a.value.nullChecks + nullChecksAll rest

mutual

/-- The number of null checks in a block and in all blocks nested in it. -/
def Block.nullChecks : Block → Nat
  | ⟨_, sources, assignments, filters⟩ =>
    Source.nullChecksAll sources + Assignment.nullChecksAll assignments +
      Condition.nullChecksAll filters
termination_by structural x => x

def Block.nullChecksAll : List Block → Nat
  | [] => 0
  | b :: rest => Block.nullChecks b + Block.nullChecksAll rest
termination_by structural x => x

def Source.nullChecks : Source → Nat
  | .table _ _ => 0
  | .nested block _ => Block.nullChecks block
  | .union _ branches _ => Block.nullChecksAll branches
  | .leftJoin block on _ => Block.nullChecks block + Condition.nullChecksAll on
termination_by structural x => x

def Source.nullChecksAll : List Source → Nat
  | [] => 0
  | s :: rest => Source.nullChecks s + Source.nullChecksAll rest
termination_by structural x => x

end

/-! ### Deciding null checks takes them away -/

/-- What deciding null checks makes of a value, with the number of checks that were decided: these
are gone, and if there are none the value is as it was. -/
structure Decides {α : Type} (checks : α → Nat) (before : α) (after : α × Nat) : Prop where
  gone : checks after.1 + after.2 = checks before
  same : after.2 = 0 → after.1 = before

namespace Decides

variable {α β γ : Type} {checks : α → Nat} {checks' : β → Nat} {checks'' : γ → Nat} {x : α} {y : β}
  {a : α × Nat} {b : β × Nat}

theorem refl (x : α) : Decides checks x (x, 0) := ⟨rfl, fun _ => rfl⟩

theorem map (h : Decides checks x a) (f : α → β) (hf : ∀ x, checks' (f x) = checks x) :
    Decides checks' (f x) (f a.1, a.2) where
  gone := by rw [hf, hf, h.gone]
  same hzero := congrArg f (h.same hzero)

theorem both (hx : Decides checks x a) (hy : Decides checks' y b) (f : α → β → γ)
    (hf : ∀ x y, checks'' (f x y) = checks x + checks' y) :
    Decides checks'' (f x y) (f a.1 b.1, a.2 + b.2) where
  gone := by
    have hx := hx.gone
    have hy := hy.gone
    simp only [hf]
    omega
  same hzero := by
    obtain ⟨ha, hb⟩ := Nat.add_eq_zero_iff.mp hzero
    exact congrArg₂ f (hx.same ha) (hy.same hb)

/-- Where a value changes, a check is gone. -/
theorem eq_or_lt (h : Decides checks x a) : a.1 = x ∨ checks a.1 < checks x := by
  by_cases hzero : a.2 = 0
  · exact .inl (h.same hzero)
  · have hgone := h.gone
    exact .inr (by omega)

end Decides

namespace Condition

variable (f : NullFacts)

theorem decides_isNull (v : Variable) :
    Decides nullChecks (isNull v) ((isNull v).resolveNulls f) := by
  rw [resolveNulls]
  split
  · exact ⟨rfl, nofun⟩
  · split
    · exact ⟨rfl, nofun⟩
    · exact .refl _

mutual

theorem decides_resolveNulls : ∀ c : Condition, Decides nullChecks c (c.resolveNulls f)
  | and items => (decides_resolveNullsEach items).map and fun _ => rfl
  | or items => (decides_resolveNullsEach items).map or fun _ => rfl
  | not inner => (decides_resolveNulls inner).map not fun _ => rfl
  | isNull v => decides_isNull f v
  | always => .refl _
  | never => .refl _
  | compare _ _ _ => .refl _
  | sameVariable _ _ => .refl _
  | sameValue _ _ => .refl _
  | langMatches _ _ => .refl _
  | like _ _ => .refl _

theorem decides_resolveNullsEach : ∀ cs : List Condition,
    Decides nullChecksAll cs (resolveNullsEach f cs)
  | [] => .refl _
  | c :: rest =>
    (decides_resolveNulls c).both (decides_resolveNullsEach rest) List.cons fun _ _ => rfl

end

end Condition

namespace Scalar

variable (f : NullFacts)

mutual

theorem decides_resolveNulls : ∀ x : Scalar, Decides nullChecks x (x.resolveNulls f)
  | column _ => .refl _
  | constant _ _ => .refl _
  | null => .refl _
  | concat items => (decides_resolveNullsEach items).map concat fun _ => rfl
  | coalesce items => (decides_resolveNullsEach items).map coalesce fun _ => rfl
  | case branches otherwise =>
    (decides_resolveNullsBranches branches).both (decides_resolveNulls otherwise) case
      fun _ _ => rfl

theorem decides_resolveNullsEach : ∀ xs : List Scalar,
    Decides nullChecksAll xs (resolveNullsEach f xs)
  | [] => .refl _
  | x :: rest =>
    (decides_resolveNulls x).both (decides_resolveNullsEach rest) List.cons fun _ _ => rfl

theorem decides_resolveNullsBranches : ∀ branches : List (Condition × Scalar),
    Decides nullChecksBranches branches (resolveNullsBranches f branches)
  | [] => .refl _
  | (c, x) :: rest => by
    have hfirst : Decides (fun p : Condition × Scalar => p.1.nullChecks + p.2.nullChecks) (c, x)
        (((c.resolveNulls f).1, (x.resolveNulls f).1),
          (c.resolveNulls f).2 + (x.resolveNulls f).2) :=
      (c.decides_resolveNulls f).both (decides_resolveNulls x) Prod.mk fun _ _ => rfl
    exact hfirst.both (decides_resolveNullsBranches rest) List.cons fun _ _ => rfl

end

end Scalar

theorem Assignment.decides_resolveNullsEach (f : NullFacts) (as : List Assignment) :
    Decides nullChecksAll as (resolveNullsEach f as) := by
  induction as with
  | nil => exact .refl _
  | cons a as ih =>
    refine (a.value.decides_resolveNulls f).both ih (fun value rest => mk a.target value :: rest) ?_
    exact fun _ _ => rfl

namespace Block

variable (t : VariableTable)

mutual

theorem decides_resolveNulls : ∀ b : Block, Decides nullChecks b (b.resolveNulls t)
  | ⟨exposed, sources, assignments, filters⟩ => by
    generalize hfacts : facts t ⟨exposed, sources, assignments, filters⟩ = f
    have hrows : Decides (fun p : List Source × List Assignment =>
        Source.nullChecksAll p.1 + Assignment.nullChecksAll p.2) (sources, assignments)
        (((Source.resolveNullsEach t f sources).1, (Assignment.resolveNullsEach f assignments).1),
          (Source.resolveNullsEach t f sources).2 +
            (Assignment.resolveNullsEach f assignments).2) :=
      (decides_resolveNullsSources f sources).both
        (Assignment.decides_resolveNullsEach f assignments) Prod.mk fun _ _ => rfl
    rw [resolveNulls, hfacts]
    refine hrows.both (Condition.decides_resolveNullsEach f filters)
      (fun p fs => mk exposed p.1 p.2 fs) ?_
    exact fun _ _ => rfl

theorem decides_resolveNullsEach : ∀ bs : List Block,
    Decides nullChecksAll bs (resolveNullsEach t bs)
  | [] => .refl _
  | b :: rest =>
    (decides_resolveNulls b).both (decides_resolveNullsEach rest) List.cons fun _ _ => rfl

theorem decides_resolveNullsSource (f : NullFacts) : ∀ s : Source,
    Decides Source.nullChecks s (s.resolveNulls t f)
  | .table _ _ => .refl _
  | .nested block vars => (decides_resolveNulls block).map (Source.nested · vars) fun _ => rfl
  | .union index branches vars =>
    (decides_resolveNullsEach branches).map (Source.union index · vars) fun _ => rfl
  | .leftJoin block on vars =>
    (decides_resolveNulls block).both (Condition.decides_resolveNullsEach _ on)
      (Source.leftJoin · · vars) fun _ _ => rfl

theorem decides_resolveNullsSources (f : NullFacts) : ∀ ss : List Source,
    Decides Source.nullChecksAll ss (Source.resolveNullsEach t f ss)
  | [] => .refl _
  | s :: rest =>
    (decides_resolveNullsSource f s).both (decides_resolveNullsSources f rest) List.cons
      fun _ _ => rfl

end

end Block

/-! ### Simplification adds no null check -/

theorem addNew_sublist (seen cs : List Condition) : (addNew seen cs).Sublist (seen ++ cs) := by
  induction cs generalizing seen with
  | nil =>
    rw [List.append_nil]
    exact List.Sublist.refl seen
  | cons c cs ih =>
    rw [addNew]
    split
    · exact (ih seen).trans ((List.sublist_cons_self c cs).append_left seen)
    · exact List.append_cons seen c cs ▸ ih (seen ++ [c])

namespace Condition

variable {k : Connective} {cs ds items : List Condition}

theorem nullChecksAll_append (cs ds : List Condition) :
    nullChecksAll (cs ++ ds) = nullChecksAll cs + nullChecksAll ds := by
  induction cs with
  | nil => exact (Nat.zero_add _).symm
  | cons c cs ih => rw [List.cons_append, nullChecksAll, nullChecksAll, ih, Nat.add_assoc]

theorem nullChecksAll_le_of_sublist (h : cs.Sublist ds) : nullChecksAll cs ≤ nullChecksAll ds := by
  induction h with
  | slnil => exact Nat.le_refl _
  | cons c _ ih => exact Nat.le_trans ih (Nat.le_add_left _ _)
  | cons_cons c _ ih => exact Nat.add_le_add_left ih _

theorem nullChecksAll_flatMap {f : Condition → List Condition}
    (h : ∀ c, nullChecksAll (f c) ≤ c.nullChecks) (cs : List Condition) :
    nullChecksAll (cs.flatMap f) ≤ nullChecksAll cs := by
  induction cs with
  | nil => exact Nat.le_refl _
  | cons c cs ih =>
    rw [List.flatMap_cons, nullChecksAll_append]
    exact Nat.add_le_add (h c) ih

theorem nullChecksAll_opened (k : Connective) (items : List Condition) :
    nullChecksAll (opened k items) ≤ nullChecksAll items := by
  refine nullChecksAll_flatMap (fun c => ?_) items
  cases hm : k.members? c with
  | none => exact Nat.le_refl _
  | some ms =>
    rw [eq_apply_of_members? hm]
    cases k <;> exact Nat.le_refl _

theorem kept_sublist (k : Connective) (items : List Condition) :
    (kept k items).Sublist (opened k items) :=
  List.filter_sublist.trans ((addNew_sublist [] _).trans List.filter_sublist)

theorem nullChecks_connect (k : Connective) (items : List Condition) :
    (connect k items).nullChecks ≤ nullChecksAll items := by
  have hkept : nullChecksAll (kept k items) ≤ nullChecksAll items :=
    Nat.le_trans (nullChecksAll_le_of_sublist (kept_sublist k items)) (nullChecksAll_opened k items)
  obtain ⟨-, heq⟩ | ⟨-, heq⟩ | ⟨c, -, hsingle, heq⟩ | ⟨-, -, heq⟩ := connect_cases k items
  · rw [heq]
    cases k <;> exact Nat.zero_le _
  · rw [heq]
    cases k <;> exact Nat.zero_le _
  · rw [hsingle] at hkept
    rw [heq]
    exact hkept
  · rw [heq]
    cases k <;> exact hkept

theorem nullChecks_negate (c : Condition) : c.negate.nullChecks = c.nullChecks := by
  cases c <;> rfl

mutual

theorem nullChecks_simplify : ∀ c : Condition, c.simplify.nullChecks ≤ c.nullChecks
  | and items => Nat.le_trans (nullChecks_connect .and _) (nullChecks_simplifyEach items)
  | or items => Nat.le_trans (nullChecks_connect .or _) (nullChecks_simplifyEach items)
  | not inner => by
    rw [simplify, nullChecks_negate]
    exact nullChecks_simplify inner
  | always => Nat.le_refl _
  | never => Nat.le_refl _
  | compare _ _ _ => Nat.le_refl _
  | sameVariable _ _ => Nat.le_refl _
  | sameValue _ _ => Nat.le_refl _
  | isNull _ => Nat.le_refl _
  | langMatches _ _ => Nat.le_refl _
  | like _ _ => Nat.le_refl _

theorem nullChecks_simplifyEach : ∀ cs : List Condition,
    nullChecksAll (simplifyEach cs) ≤ nullChecksAll cs
  | [] => Nat.le_refl _
  | c :: rest => Nat.add_le_add (nullChecks_simplify c) (nullChecks_simplifyEach rest)

end

theorem nullChecks_conjuncts (c : Condition) : nullChecksAll c.conjuncts ≤ c.nullChecks := by
  cases c <;> exact Nat.le_refl _

theorem nullChecks_simplifyAll (cs : List Condition) :
    nullChecksAll (simplifyAll cs) ≤ nullChecksAll cs := by
  obtain ⟨-, heq⟩ | ⟨-, heq⟩ := simplifyAll_cases cs
  · rw [heq]
    exact Nat.zero_le _
  · rw [heq]
    calc nullChecksAll (addNew [] ((simplifyEach cs).flatMap conjuncts))
      _ ≤ nullChecksAll ((simplifyEach cs).flatMap conjuncts) :=
        nullChecksAll_le_of_sublist (addNew_sublist [] _)
      _ ≤ nullChecksAll (simplifyEach cs) := nullChecksAll_flatMap nullChecks_conjuncts _
      _ ≤ nullChecksAll cs := nullChecks_simplifyEach cs

theorem nullChecks_simplifyList (cs : List Condition) :
    nullChecksAll (simplifyList cs) ≤ nullChecksAll cs :=
  Nat.le_trans (nullChecks_simplifyAll _) (nullChecks_simplifyEach cs)

end Condition

namespace Scalar

mutual

theorem nullChecks_simplify : ∀ x : Scalar, x.simplify.nullChecks ≤ x.nullChecks
  | column _ => Nat.le_refl _
  | constant _ _ => Nat.le_refl _
  | null => Nat.le_refl _
  | concat items => nullChecks_simplifyEach items
  | coalesce items => nullChecks_simplifyEach items
  | case branches otherwise =>
    Nat.add_le_add (nullChecks_simplifyBranches branches) (nullChecks_simplify otherwise)

theorem nullChecks_simplifyEach : ∀ xs : List Scalar,
    nullChecksAll (simplifyEach xs) ≤ nullChecksAll xs
  | [] => Nat.le_refl _
  | x :: rest => Nat.add_le_add (nullChecks_simplify x) (nullChecks_simplifyEach rest)

theorem nullChecks_simplifyBranches : ∀ branches : List (Condition × Scalar),
    nullChecksBranches (simplifyBranches branches) ≤ nullChecksBranches branches
  | [] => Nat.le_refl _
  | (c, x) :: rest =>
    Nat.add_le_add (Nat.add_le_add c.nullChecks_simplify (nullChecks_simplify x))
      (nullChecks_simplifyBranches rest)

end

end Scalar

theorem Assignment.nullChecks_simplify (as : List Assignment) :
    nullChecksAll (as.map simplify) ≤ nullChecksAll as := by
  induction as with
  | nil => exact Nat.le_refl _
  | cons a as ih => exact Nat.add_le_add a.value.nullChecks_simplify ih

namespace Block

mutual

theorem nullChecks_simplify : ∀ b : Block, b.simplify.nullChecks ≤ b.nullChecks
  | ⟨_, sources, assignments, filters⟩ =>
    Nat.add_le_add (Nat.add_le_add (nullChecks_simplifySources sources)
      (Assignment.nullChecks_simplify assignments)) (Condition.nullChecks_simplifyList filters)

theorem nullChecks_simplifyEach : ∀ bs : List Block,
    nullChecksAll (simplifyEach bs) ≤ nullChecksAll bs
  | [] => Nat.le_refl _
  | b :: rest => Nat.add_le_add (nullChecks_simplify b) (nullChecks_simplifyEach rest)

theorem nullChecks_simplifySource : ∀ s : Source, s.simplify.nullChecks ≤ s.nullChecks
  | .table _ _ => Nat.le_refl _
  | .nested block _ => nullChecks_simplify block
  | .union _ branches _ => nullChecks_simplifyEach branches
  | .leftJoin block on _ =>
    Nat.add_le_add (nullChecks_simplify block) (Condition.nullChecks_simplifyList on)

theorem nullChecks_simplifySources : ∀ ss : List Source,
    Source.nullChecksAll (Source.simplifyEach ss) ≤ Source.nullChecksAll ss
  | [] => Nat.le_refl _
  | s :: rest => Nat.add_le_add (nullChecks_simplifySource s) (nullChecks_simplifySources rest)

end

/-! ### The loop -/

variable {t : VariableTable} {eliminate : Bool} {b : Block}

theorem simplify_pass (t : VariableTable) (eliminate : Bool) (b : Block) :
    (b.pass t eliminate).simplify = b.pass t eliminate :=
  simplify_simplify _

theorem nullChecks_pass_le (t : VariableTable) (eliminate : Bool) (b : Block) :
    (b.pass t eliminate).nullChecks ≤ b.nullChecks := by
  cases eliminate with
  | false => exact nullChecks_simplify b
  | true =>
    exact Nat.le_trans (nullChecks_simplify _) (Nat.le.intro (decides_resolveNulls t b).gone)

/-- A round on a simplified block changes it only by deciding a null check. -/
theorem pass_eq_or_lt (h : b.simplify = b) (t : VariableTable) (eliminate : Bool) :
    b.pass t eliminate = b ∨ (b.pass t eliminate).nullChecks < b.nullChecks := by
  cases eliminate with
  | false => exact .inl h
  | true =>
    obtain hsame | hlt := (decides_resolveNulls t b).eq_or_lt
    · exact .inl ((congrArg simplify hsame).trans h)
    · exact .inr (Nat.lt_of_le_of_lt (nullChecks_simplify _) hlt)

/-- A block that a round does not change is changed by neither step. -/
theorem steps_of_pass_eq (h : b.pass t eliminate = b) :
    (eliminate = true → (b.resolveNulls t).1 = b) ∧ b.simplify = b := by
  refine ⟨?_, ?_⟩
  · rintro rfl
    obtain hsame | hlt := (decides_resolveNulls t b).eq_or_lt
    · exact hsame
    · -- A check that the first step decides is missing after the second one too.
      have hle : (b.pass t true).nullChecks ≤ (b.resolveNulls t).1.nullChecks :=
        nullChecks_simplify _
      rw [h] at hle
      exact absurd hlt (Nat.not_lt_of_le hle)
  · have hsimple := simplify_pass t eliminate b
    rwa [h] at hsimple

theorem optimise_eq_iterate (t : VariableTable) (eliminate : Bool) (passes : Nat) (b : Block) :
    b.optimise t eliminate passes = (pass t eliminate)^[passes] b := by
  induction passes generalizing b with
  | zero => rfl
  | succ passes ih => rw [optimise_succ, ih, Function.iterate_succ_apply]

/-- As many rounds as a simplified block has null checks lead to one that stays as it is. -/
theorem pass_optimise (t : VariableTable) (eliminate : Bool) {passes : Nat} (h : b.simplify = b)
    (hpasses : b.nullChecks ≤ passes) :
    (b.optimise t eliminate passes).pass t eliminate = b.optimise t eliminate passes := by
  induction passes generalizing b with
  | zero =>
    obtain hsame | hlt := pass_eq_or_lt h t eliminate
    · exact hsame
    · exact absurd (Nat.lt_of_lt_of_le hlt hpasses) (Nat.not_lt_zero _)
  | succ passes ih =>
    obtain hsame | hlt := pass_eq_or_lt h t eliminate
    · rw [optimise_eq_iterate, Function.iterate_fixed hsame, hsame]
    · rw [optimise_succ]
      exact ih (simplify_pass t eliminate b) (Nat.le_of_lt_succ (Nat.lt_of_lt_of_le hlt hpasses))

/-- With more rounds than a block has null checks, optimisation always comes to the same block, and
neither step reports a change of it. Each step reports a change exactly if it gives another
block. -/
theorem optimise_converges (t : VariableTable) (eliminate : Bool) (b : Block) :
    (∃ c, (∀ passes, b.nullChecks + 1 ≤ passes → b.optimise t eliminate passes = c) ∧
      (eliminate = true → c.revise (.resolving t) = .unchanged) ∧
      c.revise .simplifying = .unchanged) ∧
    ∀ c : Block, (c.revise (.resolving t) = .unchanged ↔ (c.resolveNulls t).1 = c) ∧
      (c.revise .simplifying = .unchanged ↔ c.simplify = c) ∧
      ∀ c' : Block, c.revise (.resolving t) = .changed c' ∨ c.revise .simplifying = .changed c' →
        c' ≠ c := by
  constructor
  · -- The first round leaves a simplified block; each later one that changes it decides a check.
    have hfixed := pass_optimise t eliminate (simplify_pass t eliminate b)
      (nullChecks_pass_le t eliminate b)
    rw [← optimise_succ] at hfixed
    refine ⟨b.optimise t eliminate (b.nullChecks + 1), fun passes hpasses => ?_, ?_⟩
    · obtain ⟨more, rfl⟩ := Nat.exists_eq_add_of_le hpasses
      rw [Nat.add_comm, optimise_eq_iterate, Function.iterate_add_apply,
        ← optimise_eq_iterate t eliminate (b.nullChecks + 1), Function.iterate_fixed hfixed]
    · obtain ⟨hresolve, hsimplify⟩ := steps_of_pass_eq hfixed
      refine ⟨fun h => ?_, ?_⟩
      · rw [revise_resolving, hresolve h, Change.compare_self]
      · rw [revise_simplifying, hsimplify, Change.compare_self]
  · intro c
    rw [revise_resolving, revise_simplifying, Change.compare_eq_unchanged,
      Change.compare_eq_unchanged]
    refine ⟨eq_comm, eq_comm, ?_⟩
    rintro c' (h | h)
    · exact (Change.eq_of_compare_eq_changed h).2
    · exact (Change.eq_of_compare_eq_changed h).2

/-- Three blocks, each in the next one. Only the third round decides the last null check: an inner
filter has to become simple before its facts decide a check further out, which lets the filter there
become simple. -/
theorem optimise_converges_levels :
    let column : VariableInfo := ⟨.column "id", .integer, true⟩
    let t : VariableTable := [column, column, column]
    let people (f g h : List Condition) : Block :=
      ⟨[2], [.nested ⟨[1], [.nested ⟨[0], [.table (.table "person") [0]], [], f⟩ [0],
        .table (.table "team") [1]], [], g⟩ [1], .table (.table "firm") [2]], [], h⟩
    let b := people [.or [.never, .notNull 0]] [.or [.isNull 0, .notNull 1]]
      [.or [.isNull 1, .notNull 2]]
    let c := people [.notNull 0] [.notNull 1] [.notNull 2]
    b.nullChecks = 5 ∧ b.optimise t true 2 ≠ c ∧
      (∀ passes, 6 ≤ passes → b.optimise t true passes = c) ∧
      c.revise (.resolving t) = .unchanged ∧ c.revise .simplifying = .unchanged := by
  intro column t people b c
  have hchecks : b.nullChecks = 5 := by decide
  have hearly : b.optimise t true 2 ≠ c := by decide +kernel
  have hc : b.optimise t true 6 = c := by decide +kernel
  obtain ⟨⟨c', hpasses, hresolve, hsimplify⟩, -⟩ := optimise_converges t true b
  rw [hchecks] at hpasses
  have hc' : c' = c := (hpasses 6 (Nat.le_refl 6)).symm.trans hc
  rw [hc'] at hpasses hresolve hsimplify
  exact ⟨hchecks, hearly, hpasses, hresolve rfl, hsimplify⟩

end Block

end VirtualGraph
