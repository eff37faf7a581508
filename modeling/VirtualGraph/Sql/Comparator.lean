/-!
# Comparison operators
-/

namespace VirtualGraph

/-- A binary comparison of two values. -/
inductive Comparator where
  | eq
  | ne
  | lt
  | le
  | gt
  | ge
  deriving DecidableEq

namespace Comparator

def all : List Comparator := [eq, ne, lt, le, gt, ge]

/-- The operator as SQL writes it. -/
def symbol : Comparator → String
  | eq => "="
  | ne => "<>"
  | lt => "<"
  | le => "<="
  | gt => ">"
  | ge => ">="

/-- The operator with a given SQL spelling. -/
def ofSymbol? (s : String) : Option Comparator :=
  all.find? fun op => op.symbol = s

/-- The operator that holds of two values exactly when this one does not. -/
def negate : Comparator → Comparator
  | eq => ne
  | ne => eq
  | lt => ge
  | le => gt
  | gt => le
  | ge => lt

@[simp] theorem negate_negate (op : Comparator) : op.negate.negate = op := by
  cases op <;> rfl

end Comparator

end VirtualGraph
