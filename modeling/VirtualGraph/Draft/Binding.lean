import VirtualGraph.Block.Basic
import VirtualGraph.Bound.Term

/-!
# Bindings

While a block is built, every query variable in it is bound to the pattern of the term map that
makes its terms, or to a variable of the block that holds the text of its terms. The binding also
says what is known about the shape of the terms.
-/

namespace VirtualGraph

/-- What is known about the shape of the terms of a binding. -/
inductive Shape where
  | known (shape : TermShape)
  /-- It depends on the branch that a row comes from; some branches do not bind the variable. -/
  | byBranch (index : Variable) (branches : List (Option Shape))
  | unknown

namespace Shape

mutual

/-- Equality of shapes. -/
def beq : Shape → Shape → Bool
  | known s, known t => s == t
  | byBranch i bs, byBranch j cs => i == j && beqAll bs cs
  | unknown, unknown => true
  | _, _ => false
termination_by structural x => x

def beqAll : List (Option Shape) → List (Option Shape) → Bool
  | [], [] => true
  | b :: bs, c :: cs => beqOption b c && beqAll bs cs
  | _, _ => false
termination_by structural x => x

def beqOption : Option Shape → Option Shape → Bool
  | none, none => true
  | some s, some t => beq s t
  | _, _ => false
termination_by structural x => x

end

mutual

theorem beq_iff (s t : Shape) : beq s t = true ↔ s = t := by
  cases s <;> cases t <;> simp [beq, beqAll_iff]
termination_by structural s

theorem beqAll_iff (ss ts : List (Option Shape)) : beqAll ss ts = true ↔ ss = ts := by
  cases ss <;> cases ts <;> simp [beqAll, beqOption_iff, beqAll_iff]
termination_by structural ss

theorem beqOption_iff (s t : Option Shape) : beqOption s t = true ↔ s = t := by
  cases s <;> cases t <;> simp [beqOption, beq_iff]
termination_by structural s

end

instance : DecidableEq Shape := fun s t => decidable_of_iff _ (beq_iff s t)

def known? : Shape → Option TermShape
  | known s => some s
  | _ => none

/-- The shape of a term that has one of two shapes. -/
def merge (s t : Shape) : Shape := if s = t then s else unknown

/-- Whether two shapes are never those of the same term. -/
def disjoint (s t : Shape) : Bool :=
  match s.known?, t.known? with
  | some a, some b => a.termType ≠ b.termType || a.language ≠ b.language
  | _, _ => false

mutual

/-- The variables that hold the branches that a shape depends on. -/
def indices : Shape → List Variable
  | known _ => []
  | byBranch index branches => index :: indicesAll branches
  | unknown => []
termination_by structural x => x

def indicesAll : List (Option Shape) → List Variable
  | [] => []
  | s :: rest => indicesOption s ++ indicesAll rest
termination_by structural x => x

def indicesOption : Option Shape → List Variable
  | none => []
  | some s => indices s
termination_by structural x => x

end

/-- Whether a row comes from a numbered branch. -/
def isBranch (index : Variable) (n : Nat) : Condition :=
  .compare .eq (.column index) (.constant (toString n) .integer)

mutual

/-- The language of a term of a given shape; the empty text if it has none. -/
def language? : Shape → Option Scalar
  | known s => some (.ofText (s.language.getD ""))
  | byBranch index branches =>
    (languages? index 0 branches).map fun cases => .case cases .null
  | unknown => none
termination_by structural x => x

def languages? (index : Variable) (n : Nat) :
    List (Option Shape) → Option (List (Condition × Scalar))
  | [] => some []
  | s :: rest =>
    match languageOption? s, languages? index (n + 1) rest with
    | some none, cases => cases
    | some (some x), some cases => some ((isBranch index n, x) :: cases)
    | _, _ => none
termination_by structural x => x

/-- The language in a branch that binds the variable. -/
def languageOption? : Option Shape → Option (Option Scalar)
  | none => some none
  | some s => (language? s).map some
termination_by structural x => x

end

end Shape

/-- What a query variable is bound to. -/
inductive Binding where
  /-- The terms that a term map makes. -/
  | term (term : BoundTerm)
  /-- A variable that holds the text. An escaped text is the IRI of a template that holds the column
  values as they are, not percent-encoded. -/
  | value (v : Variable) (shape : Shape) (nullable escaped : Bool)
  deriving DecidableEq

namespace Binding

def nullable : Binding → Bool
  | term _ => false
  | value _ _ nullable _ => nullable

def shape : Binding → Shape
  | term t => .known t.shape
  | value _ shape _ _ => shape

def escaped : Binding → Bool
  | term t => t.shape.termType == .iri && t.pattern.escaped && !t.pattern.isConstant
  | value _ _ _ escaped => escaped

/-- The variable that is null where the query variable is not bound. -/
def nullVariable? : Binding → Option Variable
  | value v _ true _ => some v
  | _ => none

/-- The type of the value of a binding. -/
def type (t : VariableTable) : Binding → SqlType
  | term b =>
    match b.pattern.items with
    | [.slot s] => s.type
    | _ => .string
  | value v _ _ _ => t.type v

end Binding

/-- The bindings of query variables, in the order of their names. -/
abbrev Bindings := List (String × Binding)

namespace Bindings

/-- Binds a name, in place of its earlier binding if it has one. -/
def insert (name : String) (b : Binding) : Bindings → Bindings
  | [] => [(name, b)]
  | e :: rest =>
    if name = e.1 then (name, b) :: rest
    else if name < e.1 then (name, b) :: e :: rest
    else e :: insert name b rest

/-- The bindings of given names. -/
def restrict (bs : Bindings) (names : List String) : Bindings :=
  bs.filter fun e => names.contains e.1

end Bindings

end VirtualGraph
