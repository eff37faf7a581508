/-!
# SQL value types

The types a column or an expression may have. Each dialect spells them in its own way; here are only
the facts that do not depend on the dialect.
-/

namespace VirtualGraph

/-- The SQL type of a column or expression. -/
inductive SqlType where
  | string
  | integer
  | decimal
  | float
  | boolean
  | date
  | timestamp
  | binary
  deriving DecidableEq

/-- The namespace of the XSD datatypes. -/
def xsd : String := "http://www.w3.org/2001/XMLSchema#"

namespace SqlType

instance : Inhabited SqlType := ⟨string⟩

def all : List SqlType :=
  [string, integer, decimal, float, boolean, date, timestamp, binary]

def name : SqlType → String
  | string => "string"
  | integer => "integer"
  | decimal => "decimal"
  | float => "float"
  | boolean => "boolean"
  | date => "date"
  | timestamp => "timestamp"
  | binary => "binary"

/-- The type with a given name. -/
def ofName? (s : String) : Option SqlType :=
  all.find? fun t => t.name = s

def isString (t : SqlType) : Bool := t = string

def isNumeric (t : SqlType) : Bool := t = integer || t = decimal || t = float

/-- The local names of the XSD datatypes with a SQL type. -/
def ofLocalName? : String → Option SqlType
  | "integer" | "int" | "long" | "short" | "byte" | "nonNegativeInteger" | "positiveInteger"
  | "unsignedInt" | "unsignedLong" => some integer
  | "decimal" => some decimal
  | "double" | "float" => some float
  | "boolean" => some boolean
  | "date" => some date
  | "dateTime" => some timestamp
  | "hexBinary" | "base64Binary" => some binary
  | "string" => some string
  | _ => none

/-- The local name of an IRI in the XSD namespace. -/
def localName? (datatype : String) : Option String :=
  let cs := datatype.toList
  if xsd.toList.isPrefixOf cs then some (String.ofList (cs.drop xsd.toList.length)) else none

/-- The SQL type of the values of an XSD datatype. -/
def ofXsd? (datatype : String) : Option SqlType :=
  (localName? datatype).bind ofLocalName?

/-- The XSD datatype of the natural literal of a type. Strings have none: their literals are
plain. -/
def naturalXsd? : SqlType → Option String
  | string => none
  | integer => some (xsd ++ "integer")
  | decimal => some (xsd ++ "decimal")
  | float => some (xsd ++ "double")
  | boolean => some (xsd ++ "boolean")
  | date => some (xsd ++ "date")
  | timestamp => some (xsd ++ "dateTime")
  | binary => some (xsd ++ "hexBinary")

/-- The type in which values of two types are compared: equal types as they are, numbers in the
wider numeric type, everything else as strings. -/
def common (a b : SqlType) : SqlType :=
  if a = b then a
  else if a.isNumeric && b.isNumeric then
    if a = float || b = float then float else decimal
  else string

@[simp] theorem common_self (a : SqlType) : a.common a = a := by
  simp [common]

/-- The common type of several values, `none` when there is none to compare. -/
def commonAll : List SqlType → Option SqlType
  | [] => none
  | t :: ts => some (ts.foldl common t)

end SqlType

end VirtualGraph
