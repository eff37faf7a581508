import Mathlib.Data.List.Forall2
import VirtualGraph.Proofs.Block.Narrowing

/-!
# The outline of a block

A block consists of its outline and of lists of conditions: its filters, the conditions of its left
joins and those of the cases in its assignments. Revising a block leaves the outline as it is, and
puts in the place of each list of conditions one that reads no other variables. Optimisation is a
sequence of revisions, so that it keeps the outline as well, and with it all rules of scoping.
-/

namespace VirtualGraph

/-! ### Outlines and lists of conditions -/

mutual

/-- A scalar with its cases left open. -/
def Scalar.outline : Scalar → Scalar
  | .column v => .column v
  | .constant text type => .constant text type
  | .null => .null
  | .concat items => .concat (Scalar.outlineEach items)
  | .coalesce items => .coalesce (Scalar.outlineEach items)
  | .case branches otherwise => .case (Scalar.outlineBranches branches) (Scalar.outline otherwise)
termination_by structural x => x

def Scalar.outlineEach : List Scalar → List Scalar
  | [] => []
  | x :: rest => Scalar.outline x :: Scalar.outlineEach rest
termination_by structural x => x

def Scalar.outlineBranches : List (Condition × Scalar) → List (Condition × Scalar)
  | [] => []
  | (_, x) :: rest => (.always, Scalar.outline x) :: Scalar.outlineBranches rest
termination_by structural x => x

end

mutual

/-- The conditions of the cases in a scalar, each of them on its own. -/
def Scalar.conditionLists : Scalar → List (List Condition)
  | .column _ => []
  | .constant _ _ => []
  | .null => []
  | .concat items => Scalar.conditionListsAll items
  | .coalesce items => Scalar.conditionListsAll items
  | .case branches otherwise =>
    Scalar.conditionListsBranches branches ++ Scalar.conditionLists otherwise
termination_by structural x => x

def Scalar.conditionListsAll : List Scalar → List (List Condition)
  | [] => []
  | x :: rest => Scalar.conditionLists x ++ Scalar.conditionListsAll rest
termination_by structural x => x

def Scalar.conditionListsBranches : List (Condition × Scalar) → List (List Condition)
  | [] => []
  | (c, x) :: rest => [c] :: (Scalar.conditionLists x ++ Scalar.conditionListsBranches rest)
termination_by structural x => x

end

namespace Assignment

def outline (a : Assignment) : Assignment := ⟨a.target, a.value.outline⟩

def conditionListsAll : List Assignment → List (List Condition)
  | [] => []
  | a :: rest => a.value.conditionLists ++ conditionListsAll rest

end Assignment

mutual

/-- All of a block but its conditions: what it exposes, its sources in their order, with what they
bind and the tables and blocks that they take it from, and its assignments with their cases open. -/
def Block.outline : Block → Block
  | ⟨exposed, sources, assignments, _⟩ =>
    ⟨exposed, Source.outlineEach sources, assignments.map Assignment.outline, []⟩
termination_by structural x => x

def Block.outlineEach : List Block → List Block
  | [] => []
  | b :: rest => Block.outline b :: Block.outlineEach rest
termination_by structural x => x

def Source.outline : Source → Source
  | .table source vars => .table source vars
  | .nested block vars => .nested (Block.outline block) vars
  | .union index branches vars => .union index (Block.outlineEach branches) vars
  | .leftJoin block _ vars => .leftJoin (Block.outline block) [] vars
termination_by structural x => x

def Source.outlineEach : List Source → List Source
  | [] => []
  | s :: rest => Source.outline s :: Source.outlineEach rest
termination_by structural x => x

end

mutual

/-- The lists of conditions in a block and in the blocks nested in it, in the order in which the
outline has their places. -/
def Block.conditionLists : Block → List (List Condition)
  | ⟨_, sources, assignments, filters⟩ =>
    Source.conditionListsAll sources ++ (Assignment.conditionListsAll assignments ++ [filters])
termination_by structural x => x

def Block.conditionListsAll : List Block → List (List Condition)
  | [] => []
  | b :: rest => Block.conditionLists b ++ Block.conditionListsAll rest
termination_by structural x => x

def Source.conditionLists : Source → List (List Condition)
  | .table _ _ => []
  | .nested block _ => Block.conditionLists block
  | .union _ branches _ => Block.conditionListsAll branches
  | .leftJoin block on _ => Block.conditionLists block ++ [on]
termination_by structural x => x

def Source.conditionListsAll : List Source → List (List Condition)
  | [] => []
  | s :: rest => Source.conditionLists s ++ Source.conditionListsAll rest
termination_by structural x => x

end

/-! ### Values with other conditions -/

/-- Lists of conditions, each of which reads no more than the one in its place. -/
def ReadNoMore : List (List Condition) → List (List Condition) → Prop :=
  List.Forall₂ fun new old => Condition.referencedAll new ⊆ Condition.referencedAll old

theorem ReadNoMore.refl (lists : List (List Condition)) : ReadNoMore lists lists :=
  List.forall₂_same.mpr fun _ _ => List.Subset.refl _

theorem ReadNoMore.trans {l m n : List (List Condition)} (h : ReadNoMore l m)
    (h' : ReadNoMore m n) : ReadNoMore l n := by
  induction h generalizing n with
  | nil => exact h'
  | cons hfirst _ ih =>
    cases h' with
    | cons hfirst' hrest => exact .cons (List.Subset.trans hfirst hfirst') (ih hrest)

theorem readNoMore_singleton {new old : List Condition}
    (h : Condition.referencedAll new ⊆ Condition.referencedAll old) : ReadNoMore [new] [old] :=
  .cons h .nil

/-- A value with the outline of another one, whose conditions read no more than those in the same
places. -/
structure Retests {α β : Type} (outline : α → β) (lists : α → List (List Condition)) (new old : α) :
    Prop where
  outline_eq : outline new = outline old
  reads : ReadNoMore (lists new) (lists old)

namespace Retests

variable {α α' β β' γ γ' : Type} {outline : α → α'} {outline' : β → β'} {outline'' : γ → γ'}
  {lists : α → List (List Condition)} {lists' : β → List (List Condition)}
  {lists'' : γ → List (List Condition)} {x x' x'' : α} {y y' : β}

theorem refl (x : α) : Retests outline lists x x := ⟨rfl, .refl _⟩

theorem trans (h : Retests outline lists x x') (h' : Retests outline lists x' x'') :
    Retests outline lists x x'' :=
  ⟨h.outline_eq.trans h'.outline_eq, h.reads.trans h'.reads⟩

theorem map (h : Retests outline lists x x') (f : α → β) (g : α' → β')
    (houtline : ∀ x, outline' (f x) = g (outline x)) (hlists : ∀ x, lists' (f x) = lists x) :
    Retests outline' lists' (f x) (f x') where
  outline_eq := by rw [houtline, houtline, h.outline_eq]
  reads := by
    rw [hlists, hlists]
    exact h.reads

theorem both (hx : Retests outline lists x x') (hy : Retests outline' lists' y y')
    (f : α → β → γ) (g : α' → β' → γ')
    (houtline : ∀ x y, outline'' (f x y) = g (outline x) (outline' y))
    (hlists : ∀ x y, lists'' (f x y) = lists x ++ lists' y) :
    Retests outline'' lists'' (f x y) (f x' y') where
  outline_eq := by rw [houtline, houtline, hx.outline_eq, hy.outline_eq]
  reads := by
    rw [hlists, hlists]
    exact List.rel_append hx.reads hy.reads

/-- A list of conditions has no outline. -/
theorem ofList {new old : List Condition}
    (h : Condition.referencedAll new ⊆ Condition.referencedAll old) :
    Retests (fun _ => ()) (fun cs : List Condition => [cs]) new old :=
  ⟨rfl, readNoMore_singleton h⟩

end Retests

/-! ### Revision -/

/-- A revision after which conditions read no more than before. -/
structure Revision.Narrow {Known : Type} (r : Revision Known) : Prop where
  condition : ∀ known c, (r.condition known c).referenced ⊆ c.referenced
  conditions : ∀ cs, Condition.referencedAll (r.conditions cs) ⊆ Condition.referencedAll cs

namespace Revision

variable {Known : Type} {r : Revision Known}

theorem Narrow.reviseOne (hr : r.Narrow) (known : Known) (c : Condition) :
    ((r.reviseOne known c).getD c).referenced ⊆ c.referenced := by
  rw [Revision.reviseOne, Change.getD_compare]
  exact hr.condition known c

theorem Narrow.reviseAll (hr : r.Narrow) (known : Known) (cs : List Condition) :
    Condition.referencedAll ((r.reviseAll known cs).getD cs) ⊆ Condition.referencedAll cs := by
  rw [getD_reviseAll]
  refine List.Subset.trans (hr.conditions _) ?_
  rw [Condition.referencedAll_subset, List.forall_mem_map]
  intro c hc v hv
  exact Condition.mem_referencedAll.mpr ⟨c, hc, hr.condition known c hv⟩

end Revision

namespace Scalar

variable {step : Condition → Change Condition}

mutual

theorem retests_revise (hstep : ∀ c, ((step c).getD c).referenced ⊆ c.referenced) :
    ∀ x : Scalar, Retests outline conditionLists ((x.revise step).getD x) x
  | column _ => .refl _
  | constant _ _ => .refl _
  | null => .refl _
  | concat items => by
    rw [revise, Change.getD_map]
    exact (retests_reviseEach hstep items).map concat concat (fun _ => rfl) fun _ => rfl
  | coalesce items => by
    rw [revise, Change.getD_map]
    exact (retests_reviseEach hstep items).map coalesce coalesce (fun _ => rfl) fun _ => rfl
  | case branches otherwise => by
    rw [revise, Change.getD_both]
    exact (retests_reviseBranches hstep branches).both (retests_revise hstep otherwise) case case
      (fun _ _ => rfl) fun _ _ => rfl

theorem retests_reviseEach (hstep : ∀ c, ((step c).getD c).referenced ⊆ c.referenced) :
    ∀ xs : List Scalar,
      Retests outlineEach conditionListsAll ((reviseEach step xs).getD xs) xs
  | [] => .refl _
  | x :: rest => by
    rw [reviseEach, Change.getD_both]
    exact (retests_revise hstep x).both (retests_reviseEach hstep rest) List.cons List.cons
      (fun _ _ => rfl) fun _ _ => rfl

theorem retests_reviseBranches (hstep : ∀ c, ((step c).getD c).referenced ⊆ c.referenced) :
    ∀ branches : List (Condition × Scalar),
      Retests outlineBranches conditionListsBranches ((reviseBranches step branches).getD branches)
        branches
  | [] => .refl _
  | (c, x) :: rest => by
    have hcondition : Retests (fun _ => Condition.always) (fun c => [[c]]) ((step c).getD c) c :=
      ⟨rfl, readNoMore_singleton (by simpa [Condition.referencedAll] using hstep c)⟩
    have hbranch : Retests (fun p : Condition × Scalar => (Condition.always, p.2.outline))
        (fun p => [p.1] :: p.2.conditionLists) ((step c).getD c, (x.revise step).getD x) (c, x) :=
      hcondition.both (retests_revise hstep x) Prod.mk Prod.mk (fun _ _ => rfl) fun _ _ => rfl
    rw [reviseBranches, Change.getD_both, Change.getD_both]
    exact hbranch.both (retests_reviseBranches hstep rest) List.cons List.cons (fun _ _ => rfl)
      fun _ _ => rfl

end

end Scalar

theorem Assignment.retests_revise {step : Condition → Change Condition}
    (hstep : ∀ c, ((step c).getD c).referenced ⊆ c.referenced) (as : List Assignment) :
    Retests (List.map outline) conditionListsAll ((Change.each (revise step) as).getD as) as := by
  induction as with
  | nil => exact .refl _
  | cons a as ih =>
    have hfirst : (a.revise step).getD a = ⟨a.target, (a.value.revise step).getD a.value⟩ :=
      Change.getD_map (mk a.target) (a.value.revise step) a.value
    rw [Change.each, Change.getD_both, hfirst]
    refine (Scalar.retests_revise hstep a.value).both ih
      (fun value rest => mk a.target value :: rest) (fun value rest => mk a.target value :: rest)
      ?_ ?_
    · exact fun _ _ => rfl
    · exact fun _ _ => rfl

namespace Block

variable {Known : Type} {r : Revision Known}

mutual

theorem retests_revise (hr : r.Narrow) : ∀ b : Block,
    Retests outline conditionLists ((b.revise r).getD b) b
  | ⟨exposed, sources, assignments, filters⟩ => by
    rw [getD_revise]
    generalize r.inBlock ⟨exposed, sources, assignments, filters⟩ = known
    have hrest : Retests (fun p : List Assignment × List Condition => p.1.map Assignment.outline)
        (fun p => Assignment.conditionListsAll p.1 ++ [p.2])
        ((Change.each (Assignment.revise (r.reviseOne known)) assignments).getD assignments,
          (r.reviseAll known filters).getD filters) (assignments, filters) :=
      (Assignment.retests_revise (hr.reviseOne known) assignments).both
        (.ofList (hr.reviseAll known filters)) Prod.mk (fun as _ => as) (fun _ _ => rfl)
        fun _ _ => rfl
    refine (retests_reviseSources hr known sources).both hrest
      (fun ss p => mk exposed ss p.1 p.2) (fun ss as => mk exposed ss as []) ?_ ?_
    · exact fun _ _ => rfl
    · exact fun _ _ => rfl

theorem retests_reviseEach (hr : r.Narrow) : ∀ bs : List Block,
    Retests outlineEach conditionListsAll ((reviseEach r bs).getD bs) bs
  | [] => .refl _
  | b :: rest => by
    rw [reviseEach, Change.getD_both]
    exact (retests_revise hr b).both (retests_reviseEach hr rest) List.cons List.cons
      (fun _ _ => rfl) fun _ _ => rfl

theorem retests_reviseSource (hr : r.Narrow) (known : Known) : ∀ s : Source,
    Retests Source.outline Source.conditionLists ((s.revise r known).getD s) s
  | .table _ _ => .refl _
  | .nested block vars => by
    rw [Source.revise, Change.getD_map (Source.nested · vars)]
    exact (retests_revise hr block).map (Source.nested · vars) (Source.nested · vars)
      (fun _ => rfl) fun _ => rfl
  | .union index branches vars => by
    rw [Source.revise, Change.getD_map (Source.union index · vars)]
    exact (retests_reviseEach hr branches).map (Source.union index · vars)
      (Source.union index · vars) (fun _ => rfl) fun _ => rfl
  | .leftJoin block on vars => by
    rw [Source.revise, Change.getD_both (Source.leftJoin · · vars)]
    exact (retests_revise hr block).both (.ofList (hr.reviseAll _ on)) (Source.leftJoin · · vars)
      (fun block _ => Source.leftJoin block [] vars) (fun _ _ => rfl) fun _ _ => rfl

theorem retests_reviseSources (hr : r.Narrow) (known : Known) : ∀ ss : List Source,
    Retests Source.outlineEach Source.conditionListsAll ((Source.reviseEach r known ss).getD ss) ss
  | [] => .refl _
  | s :: rest => by
    rw [Source.reviseEach, Change.getD_both]
    exact (retests_reviseSource hr known s).both (retests_reviseSources hr known rest) List.cons
      List.cons (fun _ _ => rfl) fun _ _ => rfl

end

/-! ### Optimisation -/

theorem narrow_resolving (t : VariableTable) : (Revision.resolving t).Narrow :=
  ⟨Condition.referenced_resolveNulls, fun _ => List.Subset.refl _⟩

theorem narrow_simplifying : Revision.simplifying.Narrow :=
  ⟨fun _ => Condition.referenced_simplify, Condition.referenced_simplifyAll⟩

theorem retests_round (t : VariableTable) (eliminate : Bool) (b : Block) :
    Retests outline conditionLists ((b.round t eliminate).getD b) b := by
  rw [round, Change.getD_andThen]
  refine (retests_revise narrow_simplifying _).trans ?_
  cases eliminate with
  | false => exact .refl b
  | true => exact retests_revise (narrow_resolving t) b

theorem retests_optimise (t : VariableTable) (eliminate : Bool) (passes : Nat) (b : Block) :
    Retests outline conditionLists (b.optimise t eliminate passes) b := by
  induction passes generalizing b with
  | zero => exact .refl b
  | succ passes ih =>
    have hround := retests_round t eliminate b
    rw [optimise_succ, ← getD_round]
    exact (ih _).trans hround

/-- Optimisation keeps well-scoped blocks well scoped. Of any block it changes nothing but the lists
of conditions, and each list reads only variables that were read by the list in its place. -/
theorem optimise_keeps_outline (t : VariableTable) (eliminate : Bool) (passes : Nat) (b : Block) :
    (b.validate = .ok () → (b.optimise t eliminate passes).validate = .ok ()) ∧
      (b.optimise t eliminate passes).outline = b.outline ∧
      List.Forall₂ (fun new old => Condition.referencedAll new ⊆ Condition.referencedAll old)
        (b.optimise t eliminate passes).conditionLists b.conditionLists := by
  have hretests := retests_optimise t eliminate passes b
  refine ⟨fun hvalid => ?_, hretests.outline_eq, hretests.reads⟩
  have hscoped := (optimise_narrows t eliminate passes b).scoped ((validate_eq_ok b).mp hvalid)
  exact (validate_eq_ok _).mpr hscoped

/-- Staff and guests with the managers they have. Conditions of both branches, of the left join, of
the block in it, of a case and of a filter change, and only these. -/
theorem optimise_keeps_outline_guests :
    let t : VariableTable := [⟨.derived, .integer, true⟩, ⟨.column "id", .integer, false⟩,
      ⟨.column "host", .integer, true⟩, ⟨.column "id", .integer, false⟩, ⟨.derived, .integer, true⟩]
    let people (staff guests managers on filters : List Condition) (shown : Condition) : Block :=
      ⟨[1, 4], [.union 0 [⟨[1], [.table (.table "staff") [1]], [], staff⟩,
          ⟨[], [.table (.table "guest") [2]], [], guests⟩] [1],
        .leftJoin ⟨[3], [.table (.table "staff") [3]], [], managers⟩ on [3]],
        [⟨4, .case [(shown, .column 3)] (.column 1)⟩], filters⟩
    let b := people [.notNull 1] [.or [.isNull 2, .never]] [.notNull 3]
      [.and [.notNull 3, .sameVariable 1 3]] [.notNull 0, .notNull 1]
      (.not (.or [.isNull 3, .isNull 0]))
    let c := people [] [.isNull 2] [] [.sameVariable 1 3] [.notNull 1] (.notNull 3)
    b.validate = .ok () ∧ b.optimise t true 8 = c ∧ c.validate = .ok () ∧ c.outline = b.outline ∧
      List.Forall₂ (fun new old => Condition.referencedAll new ⊆ Condition.referencedAll old)
        c.conditionLists b.conditionLists := by
  intro t people b c
  have hvalid : b.validate = .ok () := rfl
  have hc : b.optimise t true 8 = c := by decide +kernel
  obtain ⟨hvalidated, houtline, hreads⟩ := optimise_keeps_outline t true 8 b
  rw [hc] at hvalidated houtline hreads
  exact ⟨hvalid, hc, hvalidated hvalid, houtline, hreads⟩

end Block

end VirtualGraph
