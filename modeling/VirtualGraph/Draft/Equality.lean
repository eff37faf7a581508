import VirtualGraph.Draft.Binding
import VirtualGraph.Text.Numeral
import VirtualGraph.Text.Percent

/-!
# Equality of bindings

When two bindings of one query variable are equal, as a condition on the columns of the block. The
comparison of their patterns leaves pairs of smaller patterns, and each pair becomes one condition.
-/

namespace VirtualGraph

/-- The variables of the columns that a block reads, by row and column name. -/
abbrev ColumnIndex := List ((Nat × String) × Variable)

namespace ColumnIndex

/-- The variable of a column. -/
def get (columns : ColumnIndex) (row : Nat) (name : String) : Result Variable :=
  match columns.lookup (row, name) with
  | some v => .ok v
  | none => .error (.scope (.column name row))

end ColumnIndex

/-- The equality of two scalars. -/
def Condition.equal : Scalar → Scalar → Condition
  | .column a, .column b => .sameVariable a b
  | l, r => .sameValue l r

/-- Constant text of a pattern, percent-decoded if asked for. -/
def Pattern.decodeText (decode : Bool) (text : String) : String :=
  if decode then Text.percentDecode text else text

namespace PatternItem

def toScalar (columns : ColumnIndex) (decode : Bool) : PatternItem → Result Scalar
  | text t => .ok (.ofText (Pattern.decodeText decode t))
  | slot s => (columns.get s.row s.column).map .column

/-- The scalars of items. -/
def toScalars (columns : ColumnIndex) (decode : Bool) : List PatternItem → Result (List Scalar)
  | [] => .ok []
  | i :: rest => do
    let x ← i.toScalar columns decode
    let xs ← toScalars columns decode rest
    .ok (x :: xs)

end PatternItem

/-- The concatenation of scalars; a single one is itself. -/
def Scalar.join : List Scalar → Scalar
  | [] => .ofText ""
  | [x] => x
  | xs => .concat xs

/-- The conjunction of conditions; a single one is itself. -/
def Condition.all : List Condition → Condition
  | [] => .always
  | [c] => c
  | cs => .and cs

/-- Whether a text is how a value of a type is written. -/
def SqlType.isLexical : SqlType → String → Bool
  | .integer, text => Text.isCanonicalInteger text
  | .decimal, text | .float, text => Text.isCanonicalDecimal text
  | .boolean, text => text == "true" || text == "false"
  | _, _ => true

namespace Pattern

/-- The text of a pattern as a scalar. Decoding makes the constant parts of an escaped IRI
comparable with column values as they are. -/
def toScalar (columns : ColumnIndex) (decode : Bool) (p : Pattern) : Result Scalar :=
  (PatternItem.toScalars columns decode p.items).map Scalar.join

/-- Whether a column has a given text. No value is written otherwise than in its canonical form. -/
def slotEquals (columns : ColumnIndex) (s : Slot) (text : String) : Result Condition :=
  if s.type.isLexical text then
    (columns.get s.row s.column).map fun v => .compare .eq (.column v) (.constant text s.type)
  else .ok .never

/-- The condition of one pair of a comparison. Both sides are decoded if both are escaped. -/
def residualCondition (columns : ColumnIndex) (l r : Pattern) : Result Condition :=
  let decode := l.escaped && r.escaped
  match l.items, r.items, l.constant?, r.constant? with
  | [.slot a], [.slot b], _, _ => do
    let v ← columns.get a.row a.column
    let w ← columns.get b.row b.column
    .ok (.sameVariable v w)
  | [.slot s], _, _, some text => slotEquals columns s (decodeText decode text)
  | _, [.slot s], some text, _ => slotEquals columns s (decodeText decode text)
  | _, _, _, _ => do
    let x ← l.toScalar columns decode
    let y ← r.toScalar columns decode
    .ok (.equal x y)

/-- The conditions of pairs. -/
def residualConditions (columns : ColumnIndex) : List (Pattern × Pattern) → Result (List Condition)
  | [] => .ok []
  | (l, r) :: rest => do
    let c ← residualCondition columns l r
    let cs ← residualConditions columns rest
    .ok (c :: cs)

/-- When two patterns give the same text. -/
def equality (columns : ColumnIndex) (l r : Pattern) : Result Condition :=
  match l.compare r with
  | .disjoint => .ok .never
  | .residual pairs => (residualConditions columns pairs).map Condition.all

end Pattern

namespace BoundTerm

/-- When two terms are equal. -/
def equality (columns : ColumnIndex) (a b : BoundTerm) : Result Condition :=
  if a.shape = b.shape then a.pattern.equality columns b.pattern else .ok .never

end BoundTerm

namespace Binding

/-- The text of a binding. -/
def toScalar (columns : ColumnIndex) : Binding → Result Scalar
  | term t => t.pattern.toScalar columns false
  | value v _ _ _ => .ok (.column v)

/-- When two bound terms are equal. -/
def termEquality (columns : ColumnIndex) (l r : Binding) : Result Condition :=
  if l.shape.disjoint r.shape then .ok .never
  else
    match l, r with
    | term a, term b => a.equality columns b
    | _, _ => do
      let x ← l.toScalar columns
      let y ← r.toScalar columns
      .ok (.equal x y)

/-- When two bindings of one variable agree: a side that is not bound agrees with anything. -/
def equality (columns : ColumnIndex) (l r : Binding) : Result Condition := do
  let equal ← termEquality columns l r
  match [l, r].filterMap nullVariable? with
  | [] => .ok equal
  | vs => .ok (.or (vs.map .isNull ++ [equal]))

end Binding

end VirtualGraph
