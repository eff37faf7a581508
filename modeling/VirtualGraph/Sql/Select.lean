import VirtualGraph.Mapping.Basic
import VirtualGraph.Sql.Comparator
import VirtualGraph.Sql.Dialect
import VirtualGraph.Text.Numeral

/-!
# Select statements

A select statement as a tree, the same for all dialects, and its text in each of them. Sources are
numbered and have the aliases `s0`, `s1`, ...; the columns of a nested statement are named after the
variables that they hold.
-/

namespace VirtualGraph

mutual

/-- A value in a statement. -/
inductive SqlValue where
  /-- A column of a table, by the number of its source. -/
  | tableColumn (source : Nat) (name : String)
  /-- A column of a nested statement. -/
  | nestedColumn (source v : Nat)
  | constant (text : String) (type : SqlType)
  | number (n : Nat)
  | null
  | cast (value : SqlValue) (type : SqlType)
  | concat (items : List SqlValue)
  | coalesce (items : List SqlValue)
  | case (branches : List (SqlCondition × SqlValue)) (otherwise : SqlValue)

/-- A condition in a statement. -/
inductive SqlCondition where
  | always
  | never
  | and (items : List SqlCondition)
  | or (items : List SqlCondition)
  | not (inner : SqlCondition)
  | compare (op : Comparator) (left right : SqlValue)
  | isNull (value : SqlValue)
  | isNotNull (value : SqlValue)
  /-- Whether a language tag is in a language range; every tag is in the range `*`. -/
  | langMatches (language : SqlValue) (range : String)
  | like (value : SqlValue) (pattern : String)

end

/-- The name of a selected column: a name of the result, or a variable. -/
inductive SqlName where
  | output (name : String)
  | var (v : Nat)
  deriving DecidableEq

mutual

/-- A select statement. -/
structure Select where
  distinct : Bool
  columns : List (SqlValue × SqlName)
  sources : List SqlSource
  filters : List SqlCondition

/-- A source of a statement. All but left joins are cross-joined. -/
inductive SqlSource where
  | table (table : TableSource) (number : Nat)
  | nested (select : Select) (number : Nat)
  | union (branches : List Select) (number : Nat)
  | leftJoin (select : Select) (number : Nat) (on : List SqlCondition)
  /-- A single row, for a left join that has nothing on its left. -/
  | oneRow (number : Nat)

end

namespace Dialect

/-- The alias of a numbered source. -/
def sourceAlias (n : Nat) : String := s!"s{n}"

/-- The column name of a variable. -/
def variableName (v : Nat) : String := s!"c{v}"

def columnName (d : Dialect) : SqlName → String
  | .output name => d.identifier name
  | .var v => variableName v

/-- A constant. Numbers of numeric types stand without quotes. -/
def constant (d : Dialect) (text : String) (type : SqlType) : String :=
  match type with
  | .integer | .decimal | .float => if Text.isNumber text then text else d.stringLiteral text
  | .boolean =>
    if text = "true" ∨ text = "1" then d.boolLiteral true
    else if text = "false" ∨ text = "0" then d.boolLiteral false
    else d.stringLiteral text
  | _ => d.stringLiteral text

def table (d : Dialect) : TableSource → String
  | .table name => d.identifier name
  | .query sql => "(" ++ sql ++ ")"

/-- Conditions that all have to hold. -/
def conjunction : List String → String
  | [] => "1 = 1"
  | items => Text.join " AND " items

/-- Conditions of which one has to hold. -/
def disjunction : List String → String
  | [] => "1 = 0"
  | items => "(" ++ Text.join " OR " items ++ ")"

mutual

/-- The text of a value. -/
def value (d : Dialect) : SqlValue → String
  | .tableColumn source name => sourceAlias source ++ "." ++ d.identifier name
  | .nestedColumn source v => sourceAlias source ++ "." ++ variableName v
  | .constant text type => d.constant text type
  | .number n => toString n
  | .null => "NULL"
  | .cast x type => d.cast (value d x) type
  | .concat items => d.concat (values d items)
  | .coalesce items => "COALESCE(" ++ Text.join ", " (values d items) ++ ")"
  | .case branches otherwise =>
    "CASE" ++ whens d branches ++ " ELSE " ++ value d otherwise ++ " END"
termination_by structural x => x

def values (d : Dialect) : List SqlValue → List String
  | [] => []
  | x :: rest => value d x :: values d rest
termination_by structural x => x

def whens (d : Dialect) : List (SqlCondition × SqlValue) → String
  | [] => ""
  | (c, x) :: rest => " WHEN " ++ condition d c ++ " THEN " ++ value d x ++ whens d rest
termination_by structural x => x

/-- The text of a condition. -/
def condition (d : Dialect) : SqlCondition → String
  | .always => "1 = 1"
  | .never => "1 = 0"
  | .and items => "(" ++ conjunction (conditions d items) ++ ")"
  | .or items => disjunction (conditions d items)
  | .not inner => "NOT (" ++ condition d inner ++ ")"
  | .compare op l r => value d l ++ " " ++ op.symbol ++ " " ++ value d r
  | .isNull x => value d x ++ " IS NULL"
  | .isNotNull x => value d x ++ " IS NOT NULL"
  | .langMatches x range =>
    let tag := value d x
    if range = "*" then tag ++ " <> ''"
    else
      "(LOWER(" ++ tag ++ ") = " ++ d.stringLiteral range ++ " OR LOWER(" ++ tag ++ ") LIKE "
        ++ d.stringLiteral (range ++ "-%") ++ ")"
  | .like x pattern => value d x ++ " LIKE " ++ d.stringLiteral pattern ++ " ESCAPE '!'"
termination_by structural x => x

def conditions (d : Dialect) : List SqlCondition → List String
  | [] => []
  | c :: rest => condition d c :: conditions d rest
termination_by structural x => x

end

/-- The list of selected columns. A statement without any selects a placeholder. -/
def selectList (d : Dialect) (columns : List (SqlValue × SqlName)) : String :=
  match columns with
  | [] => "NULL AS placeholder"
  | _ => Text.join ", " (columns.map fun (x, name) => d.value x ++ " AS " ++ d.columnName name)

/-- What stands before a source that is not the first. -/
def crossJoin (first : Bool) : String := if first then "" else " CROSS JOIN "

mutual

/-- The text of a statement. -/
def select (d : Dialect) : Select → String
  | ⟨distinct, columns, sources, filters⟩ =>
    "SELECT " ++ (if distinct then "DISTINCT " else "") ++ d.selectList columns
      ++ (if sources.isEmpty then d.emptyFrom else " FROM " ++ selectSources d true sources)
      ++ (if filters.isEmpty then "" else " WHERE " ++ conjunction (d.conditions filters))
termination_by structural x => x

def selects (d : Dialect) : List Select → List String
  | [] => []
  | s :: rest => select d s :: selects d rest
termination_by structural x => x

def selectSource (d : Dialect) (first : Bool) : SqlSource → String
  | .table t n => crossJoin first ++ d.table t ++ " AS " ++ sourceAlias n
  | .nested s n => crossJoin first ++ "(" ++ select d s ++ ") AS " ++ sourceAlias n
  | .union branches n =>
    crossJoin first ++ "(" ++ Text.join " UNION ALL " (selects d branches) ++ ") AS "
      ++ sourceAlias n
  | .leftJoin s n on =>
    " LEFT JOIN (" ++ select d s ++ ") AS " ++ sourceAlias n ++ " ON "
      ++ conjunction (d.conditions on)
  | .oneRow n => crossJoin first ++ "(SELECT 1 AS one) AS " ++ sourceAlias n
termination_by structural x => x

def selectSources (d : Dialect) (first : Bool) : List SqlSource → String
  | [] => ""
  | s :: rest => selectSource d first s ++ selectSources d false rest
termination_by structural x => x

end

end Dialect

end VirtualGraph
