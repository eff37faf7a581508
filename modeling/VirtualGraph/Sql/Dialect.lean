import VirtualGraph.Sql.Type
import VirtualGraph.Text.Chars

/-!
# SQL dialects

What differs between the three databases: how identifiers, strings and truth values are quoted, how
texts are concatenated, what the types are called and how a result is cut.
-/

namespace VirtualGraph

/-- A supported database. -/
inductive Dialect where
  | postgres
  | mysql
  | sqlite
  deriving DecidableEq

namespace Dialect

instance : Inhabited Dialect := ⟨postgres⟩

def name : Dialect → String
  | postgres => "postgres"
  | mysql => "mysql"
  | sqlite => "sqlite"

/-- The dialect with exactly this name. -/
def ofName? : String → Option Dialect
  | "postgres" => some postgres
  | "mysql" => some mysql
  | "sqlite" => some sqlite
  | _ => none

/-- The dialect that a user means by a word; the word in lower case when there is none. -/
def ofWord (word : String) : Except String Dialect :=
  match Text.lower word with
  | "postgres" | "postgresql" | "pg" => .ok postgres
  | "mysql" | "mariadb" => .ok mysql
  | "sqlite" => .ok sqlite
  | other => .error other

/-- What is said about a word that names no dialect. -/
def unknownMessage (word : String) : String := s!"unknown dialect '{word}'"

/-- The dialect of a database address, by its scheme. -/
def ofUrl? (url : String) : Option Dialect :=
  match String.ofList (url.toList.takeWhile (· != ':')) with
  | "postgres" | "postgresql" => some postgres
  | "mysql" | "mariadb" => some mysql
  | "sqlite" => some sqlite
  | _ => none

/-- The words that cannot stand as an identifier without quotes. -/
def reservedWords : List String :=
  ["all", "and", "as", "between", "case", "check", "column", "constraint", "create", "cross",
    "default", "distinct", "else", "end", "escape", "from", "full", "group", "having", "in",
    "inner", "is", "join", "key", "left", "like", "limit", "not", "null", "offset", "on", "or",
    "order", "outer", "primary", "references", "right", "select", "table", "then", "union",
    "user", "when", "where"]

/-- The characters of an identifier that needs no quotes: a database that folds case leaves them
alone. -/
def isPlainChar (c : Char) : Bool := c.isLower || c.isDigit || c == '_'

/-- Whether one part of an identifier can stand without quotes. -/
def isPlain (part : List Char) : Bool :=
  !part.isEmpty && part.all isPlainChar && !(part.head?.any Char.isDigit)
    && !reservedWords.contains (String.ofList part)

/-- A text between two marks, each mark inside it written twice. -/
def enclose (mark : Char) (cs : List Char) : List Char :=
  mark :: Text.replaceChar mark [mark, mark] cs ++ [mark]

/-- One part of an identifier, quoted where it has to be. -/
def quotePart (part : List Char) : List Char :=
  if isPlain part then part else enclose '"' part

/-- Applies a function to the parts of a dotted name. -/
def onParts (f : List Char → List Char) (name : String) : String :=
  Text.join "." ((Text.splitAtChar '.' name.toList).map fun part => String.ofList (f part))

/-- A dotted identifier whose parts are quoted where they have to be. -/
def escapeIdentifier (name : String) : String := onParts quotePart name

/-- An identifier. -/
def identifier : Dialect → String → String
  | mysql, name => onParts (enclose '\x60') name
  | _, name => escapeIdentifier name

/-- A string literal. -/
def stringLiteral : Dialect → String → String
  | mysql, text =>
    String.ofList (enclose '\'' (Text.replaceChar '\\' ['\\', '\\'] text.toList))
  | _, text => String.ofList (enclose '\'' text.toList)

/-- A truth value. -/
def boolLiteral : Dialect → Bool → String
  | postgres, b => if b then "true" else "false"
  | _, b => if b then "1" else "0"

/-- The concatenation of rendered operands. -/
def concat : Dialect → List String → String
  | mysql, parts => "CONCAT(" ++ Text.join ", " parts ++ ")"
  | _, parts => "(" ++ Text.join " || " parts ++ ")"

/-- What cuts the result to `limit` rows after the first `offset`. MySQL and SQLite take an offset
only after a limit, so a limit that cuts nothing stands before it. -/
def limitOffset (d : Dialect) (limit offset : Option Nat) : String :=
  match limit, offset with
  | some n, some m => s!" LIMIT {n} OFFSET {m}"
  | some n, none => s!" LIMIT {n}"
  | none, none => ""
  | none, some m =>
    match d with
    | postgres => s!" OFFSET {m}"
    | mysql => s!" LIMIT 18446744073709551615 OFFSET {m}"
    | sqlite => s!" LIMIT -1 OFFSET {m}"

/-- The name of a type as a cast takes it. -/
def typeName : Dialect → SqlType → String
  | postgres, .string => "TEXT"
  | postgres, .integer => "BIGINT"
  | postgres, .decimal => "NUMERIC"
  | postgres, .float => "DOUBLE PRECISION"
  | postgres, .boolean => "BOOLEAN"
  | postgres, .date => "DATE"
  | postgres, .timestamp => "TIMESTAMP"
  | postgres, .binary => "BYTEA"
  | mysql, .string => "CHAR"
  | mysql, .integer | mysql, .boolean => "SIGNED"
  | mysql, .decimal => "DECIMAL(65, 30)"
  | mysql, .float => "DOUBLE"
  | mysql, .date => "DATE"
  | mysql, .timestamp => "DATETIME"
  | mysql, .binary => "BINARY"
  | sqlite, .string | sqlite, .date | sqlite, .timestamp => "TEXT"
  | sqlite, .integer | sqlite, .boolean => "INTEGER"
  | sqlite, .decimal => "NUMERIC"
  | sqlite, .float => "REAL"
  | sqlite, .binary => "BLOB"

/-- A rendered value converted to a type. -/
def cast (d : Dialect) (value : String) (type : SqlType) : String :=
  "CAST(" ++ value ++ " AS " ++ d.typeName type ++ ")"

/-- What follows the columns of a select without sources. -/
def emptyFrom : Dialect → String
  | mysql => " FROM DUAL"
  | _ => ""

end Dialect

end VirtualGraph
