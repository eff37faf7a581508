import VirtualGraph.Algebra.Term
import VirtualGraph.Sql.Comparator

/-!
# Expressions of filters and bindings
-/

namespace VirtualGraph

/-- An expression over the variables of a solution. -/
inductive Expression where
  | var (name : String)
  | constant (term : Term)
  | compare (op : Comparator) (left right : Expression)
  | and (items : List Expression)
  | or (items : List Expression)
  | not (inner : Expression)
  | bound (name : String)
  | lang (inner : Expression)
  | str (inner : Expression)
  | langMatches (language range : Expression)
  | strStarts (value part : Expression)
  | strEnds (value part : Expression)
  | contains (value part : Expression)
  | concat (items : List Expression)
  | coalesce (items : List Expression)

namespace Expression

/-- The operator as an expression writes it. -/
def operatorName : Comparator → String
  | .ne => "!="
  | op => op.symbol

mutual

/-- The written form of an expression. -/
def display : Expression → String
  | var name => "?" ++ name
  | constant term => term.display
  | compare op l r => "(" ++ operatorName op ++ " " ++ display l ++ " " ++ display r ++ ")"
  | and items => "(&&" ++ displayAll items ++ ")"
  | or items => "(||" ++ displayAll items ++ ")"
  | not inner => "(! " ++ display inner ++ ")"
  | bound name => "(bound ?" ++ name ++ ")"
  | lang inner => "(lang " ++ display inner ++ ")"
  | str inner => "(str " ++ display inner ++ ")"
  | langMatches l r => "(langMatches " ++ display l ++ " " ++ display r ++ ")"
  | strStarts l r => "(strstarts " ++ display l ++ " " ++ display r ++ ")"
  | strEnds l r => "(strends " ++ display l ++ " " ++ display r ++ ")"
  | contains l r => "(contains " ++ display l ++ " " ++ display r ++ ")"
  | concat items => "(concat" ++ displayAll items ++ ")"
  | coalesce items => "(coalesce" ++ displayAll items ++ ")"

/-- The written forms of arguments, a blank before each. -/
def displayAll : List Expression → String
  | [] => ""
  | e :: rest => " " ++ display e ++ displayAll rest

end

end Expression

end VirtualGraph
