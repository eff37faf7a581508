import VirtualGraph.Pattern.Template
import VirtualGraph.Sql.Type

/-!
# Text patterns

A pattern describes every text that a term map, or a constant of a query, can produce: a sequence of
characters and slots, where a slot stands for the value of one column in one row. Two slots are
equal only when they are sure to hold the same value.

An escaped pattern belongs to an IRI whose slot values are percent-encoded, so that they hold no
reserved character.
-/

namespace VirtualGraph

/-- The place of one column value. `row` numbers the row the column is read from. -/
structure Slot where
  row : Nat
  column : String
  type : SqlType
  deriving DecidableEq

/-- One element of a pattern. -/
inductive Symbol where
  | char (c : Char)
  | slot (s : Slot)
  deriving DecidableEq

/-- The texts with these characters, and any values of these slots, in this order. -/
structure Pattern where
  escaped : Bool
  symbols : List Symbol
  deriving DecidableEq

namespace Symbol

def isChar : Symbol → Bool
  | char _ => true
  | slot _ => false

def char? : Symbol → Option Char
  | char c => some c
  | slot _ => none

def slot? : Symbol → Option Slot
  | char _ => none
  | slot s => some s

end Symbol

/-- A run of characters, or a slot. -/
inductive PatternItem where
  | text (text : String)
  | slot (s : Slot)
  deriving DecidableEq

namespace PatternItem

def symbols : PatternItem → List Symbol
  | text t => t.toList.map .char
  | slot s => [.slot s]

end PatternItem

namespace Pattern

/-- The pattern of one text. -/
def ofText (text : String) (escaped : Bool) : Pattern :=
  ⟨escaped, text.toList.map .char⟩

/-- The pattern of one column value. -/
def ofSlot (slot : Slot) (escaped : Bool) : Pattern :=
  ⟨escaped, [.slot slot]⟩

def ofItems (escaped : Bool) (items : List PatternItem) : Pattern :=
  ⟨escaped, items.flatMap PatternItem.symbols⟩

/-- The pattern of a template filled from one row. -/
def ofTemplate (parts : List TemplatePart) (row : Nat) (escaped : Bool)
    (columnType : String → SqlType) : Pattern :=
  ofItems escaped <| parts.map fun
    | .text t => .text t
    | .column c => .slot ⟨row, c, columnType c⟩

/-- Puts a symbol in front of the items that follow it, with neighbouring characters in one
text. -/
def addSymbol : Symbol → List PatternItem → List PatternItem
  | .char c, .text t :: items => .text (String.ofList (c :: t.toList)) :: items
  | .char c, items => .text (String.ofList [c]) :: items
  | .slot s, items => .slot s :: items

/-- The pattern as texts and slots, no text empty and no two texts side by side. -/
def items (p : Pattern) : List PatternItem :=
  p.symbols.foldr addSymbol []

def isEmpty (p : Pattern) : Bool := p.symbols.isEmpty

/-- Whether the pattern has no slot. -/
def isConstant (p : Pattern) : Bool := p.symbols.all Symbol.isChar

/-- Whether the pattern has a character. -/
def hasText (p : Pattern) : Bool := p.symbols.any Symbol.isChar

/-- The characters of a pattern, without its slots. -/
def chars (p : Pattern) : List Char := p.symbols.filterMap Symbol.char?

/-- The only text of a pattern without slots. -/
def constant? (p : Pattern) : Option String :=
  if p.isConstant then some (String.ofList p.chars) else none

/-- The written form of a pattern: a slot is its column and row between braces. -/
def display (p : Pattern) : String :=
  String.ofList <| p.symbols.flatMap fun
    | .char c => [c]
    | .slot s => '\x7b' :: s.column.toList ++ '#' :: (toString s.row).toList ++ ['\x7d']

end Pattern

end VirtualGraph
