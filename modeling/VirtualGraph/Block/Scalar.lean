import VirtualGraph.Sql.Comparator
import VirtualGraph.Sql.Type

/-!
# Scalars and conditions

The values and tests of a block, over numbered variables. Conditions have the three truth values of
SQL: a test of a null is unknown.
-/

namespace VirtualGraph

/-- A variable of a block, by its number. Fewer than 2^32 variables are taken. -/
abbrev Variable := Nat

mutual

/-- A value computed from the variables of a row. -/
inductive Scalar where
  | column (v : Variable)
  | constant (text : String) (type : SqlType)
  | null
  | concat (items : List Scalar)
  | coalesce (items : List Scalar)
  | case (branches : List (Condition × Scalar)) (otherwise : Scalar)

/-- A test of the variables of a row. -/
inductive Condition where
  | always
  | never
  | and (items : List Condition)
  | or (items : List Condition)
  | not (inner : Condition)
  | compare (op : Comparator) (left right : Scalar)
  | sameVariable (a b : Variable)
  | sameValue (left right : Scalar)
  | isNull (v : Variable)
  /-- Whether a language tag is in a language range. -/
  | langMatches (language : Scalar) (range : String)
  /-- Whether a text fits a `LIKE` pattern with the escape character `!`. -/
  | like (value : Scalar) (pattern : String)

end

mutual

/-- Equality of scalars. -/
def Scalar.beq : Scalar → Scalar → Bool
  | .column v, .column w => v == w
  | .constant s t, .constant s' t' => s == s' && t == t'
  | .null, .null => true
  | .concat xs, .concat ys => Scalar.beqAll xs ys
  | .coalesce xs, .coalesce ys => Scalar.beqAll xs ys
  | .case bs x, .case cs y => Scalar.beqBranches bs cs && Scalar.beq x y
  | _, _ => false
termination_by structural x => x

def Scalar.beqAll : List Scalar → List Scalar → Bool
  | [], [] => true
  | x :: xs, y :: ys => Scalar.beq x y && Scalar.beqAll xs ys
  | _, _ => false
termination_by structural x => x

def Scalar.beqBranches : List (Condition × Scalar) → List (Condition × Scalar) → Bool
  | [], [] => true
  | (c, x) :: xs, (d, y) :: ys => Condition.beq c d && Scalar.beq x y && Scalar.beqBranches xs ys
  | _, _ => false
termination_by structural x => x

/-- Equality of conditions. -/
def Condition.beq : Condition → Condition → Bool
  | .always, .always => true
  | .never, .never => true
  | .and xs, .and ys => Condition.beqAll xs ys
  | .or xs, .or ys => Condition.beqAll xs ys
  | .not c, .not d => Condition.beq c d
  | .compare o l r, .compare o' l' r' => o == o' && Scalar.beq l l' && Scalar.beq r r'
  | .sameVariable a b, .sameVariable a' b' => a == a' && b == b'
  | .sameValue l r, .sameValue l' r' => Scalar.beq l l' && Scalar.beq r r'
  | .isNull v, .isNull w => v == w
  | .langMatches x s, .langMatches y t => Scalar.beq x y && s == t
  | .like x s, .like y t => Scalar.beq x y && s == t
  | _, _ => false
termination_by structural x => x

def Condition.beqAll : List Condition → List Condition → Bool
  | [], [] => true
  | c :: cs, d :: ds => Condition.beq c d && Condition.beqAll cs ds
  | _, _ => false
termination_by structural x => x

end

mutual

theorem Scalar.beq_iff (x y : Scalar) : Scalar.beq x y = true ↔ x = y := by
  cases x <;> cases y <;>
    simp [Scalar.beq, Scalar.beqAll_iff, Scalar.beqBranches_iff, Scalar.beq_iff]
termination_by structural x

theorem Scalar.beqAll_iff (xs ys : List Scalar) : Scalar.beqAll xs ys = true ↔ xs = ys := by
  cases xs <;> cases ys <;> simp [Scalar.beqAll, Scalar.beq_iff, Scalar.beqAll_iff]
termination_by structural xs

theorem Scalar.beqBranches_iff (xs ys : List (Condition × Scalar)) :
    Scalar.beqBranches xs ys = true ↔ xs = ys := by
  rcases xs with _ | ⟨⟨c, x⟩, xs⟩ <;> rcases ys with _ | ⟨⟨d, y⟩, ys⟩ <;>
    simp [Scalar.beqBranches, Condition.beq_iff, Scalar.beq_iff, Scalar.beqBranches_iff]
termination_by structural xs

theorem Condition.beq_iff (c d : Condition) : Condition.beq c d = true ↔ c = d := by
  cases c <;> cases d <;>
    simp [Condition.beq, Condition.beqAll_iff, Condition.beq_iff, Scalar.beq_iff, and_assoc]
termination_by structural c

theorem Condition.beqAll_iff (cs ds : List Condition) :
    Condition.beqAll cs ds = true ↔ cs = ds := by
  cases cs <;> cases ds <;> simp [Condition.beqAll, Condition.beq_iff, Condition.beqAll_iff]
termination_by structural cs

end

instance : DecidableEq Scalar := fun x y => decidable_of_iff _ (Scalar.beq_iff x y)

instance : DecidableEq Condition := fun c d => decidable_of_iff _ (Condition.beq_iff c d)

instance : Inhabited Scalar := ⟨.null⟩

instance : Inhabited Condition := ⟨.always⟩

mutual

/-- The variables that a scalar reads, in order of appearance. -/
def Scalar.referenced : Scalar → List Variable
  | .column v => [v]
  | .constant _ _ => []
  | .null => []
  | .concat items => Scalar.referencedAll items
  | .coalesce items => Scalar.referencedAll items
  | .case branches otherwise => Scalar.referencedBranches branches ++ Scalar.referenced otherwise

def Scalar.referencedAll : List Scalar → List Variable
  | [] => []
  | x :: xs => Scalar.referenced x ++ Scalar.referencedAll xs

def Scalar.referencedBranches : List (Condition × Scalar) → List Variable
  | [] => []
  | (c, x) :: xs => Condition.referenced c ++ (Scalar.referenced x ++ Scalar.referencedBranches xs)

/-- The variables that a condition reads, in order of appearance. -/
def Condition.referenced : Condition → List Variable
  | .always => []
  | .never => []
  | .and items => Condition.referencedAll items
  | .or items => Condition.referencedAll items
  | .not inner => Condition.referenced inner
  | .compare _ l r => Scalar.referenced l ++ Scalar.referenced r
  | .sameVariable a b => [a, b]
  | .sameValue l r => Scalar.referenced l ++ Scalar.referenced r
  | .isNull v => [v]
  | .langMatches x _ => Scalar.referenced x
  | .like x _ => Scalar.referenced x

def Condition.referencedAll : List Condition → List Variable
  | [] => []
  | c :: cs => Condition.referenced c ++ Condition.referencedAll cs

end

namespace Scalar

/-- A text as a value. -/
def ofText (text : String) : Scalar := constant text .string

end Scalar

namespace Condition

/-- Whether a variable has a value. -/
def notNull (v : Variable) : Condition := not (isNull v)

end Condition

end VirtualGraph
