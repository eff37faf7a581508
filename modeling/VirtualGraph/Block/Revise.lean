import VirtualGraph.Block.Basic

/-!
# Revision of blocks

A step of optimisation visits all conditions of a block: its filters, the conditions of its left
joins and those of the cases in its assignments, in the block and in the blocks nested in it. It
reports whether it changed anything, and what it did not change it does not build again.
-/

namespace VirtualGraph

/-- What a step makes of a value: nothing new, or another value. -/
inductive Change (α : Type) where
  | unchanged
  | changed (after : α)
  deriving DecidableEq

namespace Change

variable {α β γ : Type}

/-- The value after a step, given the one before it. -/
def getD : Change α → α → α
  | unchanged, before => before
  | changed after, _ => after

def map (f : α → β) : Change α → Change β
  | unchanged => unchanged
  | changed after => changed (f after)

/-- A change, unless the values before and after it are equal. -/
def compare [DecidableEq α] (before after : α) : Change α :=
  if before = after then unchanged else changed after

/-- Two steps, one after the other. -/
def andThen (before : α) (first : Change α) (second : α → Change α) : Change α :=
  match second (first.getD before) with
  | unchanged => first
  | changed after => changed after

/-- A step on each of two parts. They are put together again only if one of them changed. -/
def both (f : α → β → γ) (x : α) (y : β) : Change α → Change β → Change γ
  | unchanged, unchanged => unchanged
  | c, d => changed (f (c.getD x) (d.getD y))

/-- A step on each element of a list. -/
def each (step : α → Change α) : List α → Change (List α)
  | [] => unchanged
  | x :: rest => both List.cons x rest (step x) (each step rest)

end Change

/-- A way to revise conditions by what is known at the place where they stand. -/
structure Revision (Known : Type) where
  /-- What is known in a block. -/
  inBlock : Block → Known
  /-- What is known where the conditions of a left join are tested: what is known in the block
  around it, and the revised block whose variables it takes. -/
  inJoin : Known → Block → List Variable → Known
  condition : Known → Condition → Condition
  /-- Conditions that all have to hold, after each of them was revised. -/
  conditions : List Condition → List Condition

namespace Revision

variable {Known : Type}

def reviseOne (r : Revision Known) (known : Known) (c : Condition) : Change Condition :=
  .compare c (r.condition known c)

/-- Revises conditions that all have to hold: each of them, and then the list. -/
def reviseAll (r : Revision Known) (known : Known) (cs : List Condition) :
    Change (List Condition) :=
  .andThen cs (.each (r.reviseOne known) cs) fun cs => .compare cs (r.conditions cs)

end Revision

variable {Known : Type}

mutual

/-- Revises the conditions of the cases in a scalar. -/
def Scalar.revise (step : Condition → Change Condition) : Scalar → Change Scalar
  | .column _ => .unchanged
  | .constant _ _ => .unchanged
  | .null => .unchanged
  | .concat items => (Scalar.reviseEach step items).map .concat
  | .coalesce items => (Scalar.reviseEach step items).map .coalesce
  | .case branches otherwise =>
    .both .case branches otherwise (Scalar.reviseBranches step branches)
      (Scalar.revise step otherwise)
termination_by structural x => x

def Scalar.reviseEach (step : Condition → Change Condition) : List Scalar → Change (List Scalar)
  | [] => .unchanged
  | x :: rest => .both List.cons x rest (Scalar.revise step x) (Scalar.reviseEach step rest)
termination_by structural x => x

def Scalar.reviseBranches (step : Condition → Change Condition) :
    List (Condition × Scalar) → Change (List (Condition × Scalar))
  | [] => .unchanged
  | (c, x) :: rest =>
    .both List.cons (c, x) rest (.both Prod.mk c x (step c) (Scalar.revise step x))
      (Scalar.reviseBranches step rest)
termination_by structural x => x

end

def Assignment.revise (step : Condition → Change Condition) (a : Assignment) : Change Assignment :=
  (a.value.revise step).map fun value => ⟨a.target, value⟩

mutual

/-- Revises all conditions of a block. -/
def Block.revise (r : Revision Known) : Block → Change Block
  | ⟨exposed, sources, assignments, filters⟩ =>
    let known := r.inBlock ⟨exposed, sources, assignments, filters⟩
    .both (fun sources rest => ⟨exposed, sources, rest.1, rest.2⟩) sources (assignments, filters)
      (Source.reviseEach r known sources)
      (.both Prod.mk assignments filters (.each (Assignment.revise (r.reviseOne known)) assignments)
        (r.reviseAll known filters))
termination_by structural x => x

def Block.reviseEach (r : Revision Known) : List Block → Change (List Block)
  | [] => .unchanged
  | b :: rest => .both List.cons b rest (Block.revise r b) (Block.reviseEach r rest)
termination_by structural x => x

/-- Revises the conditions in a source of a block of which something is known. -/
def Source.revise (r : Revision Known) (known : Known) : Source → Change Source
  | .table _ _ => .unchanged
  | .nested block vars => (Block.revise r block).map (.nested · vars)
  | .union index branches vars => (Block.reviseEach r branches).map (.union index · vars)
  | .leftJoin block on vars =>
    let revised := Block.revise r block
    .both (.leftJoin · · vars) block on revised
      (r.reviseAll (r.inJoin known (revised.getD block) vars) on)
termination_by structural x => x

def Source.reviseEach (r : Revision Known) (known : Known) : List Source → Change (List Source)
  | [] => .unchanged
  | s :: rest =>
    .both List.cons s rest (Source.revise r known s) (Source.reviseEach r known rest)
termination_by structural x => x

end

end VirtualGraph
