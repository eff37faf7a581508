import VirtualGraph.Document.Basic
import VirtualGraph.Text.Blank
import VirtualGraph.Text.Magnitude
import VirtualGraph.Text.Percent

/-!
# JSON documents

A strict reader of JSON text. Text with half a character, a number that is infinite and a list or
object that is nested too deeply are well formed all the same, and become unreadable values.

The functions on nested values take the length of the text as fuel: every call reads at least one
character, so the fuel never runs out before the text does.
-/

namespace VirtualGraph

namespace Json

/-- Skips blanks. -/
def skip (cs : List Char) : List Char := cs.dropWhile Text.isLayout

/-- The number that four hexadecimal digits write. -/
def hex4? : List Char → Option (Nat × List Char)
  | a :: b :: c :: d :: rest =>
    match Text.hexValue? a, Text.hexValue? b, Text.hexValue? c, Text.hexValue? d with
    | some w, some x, some y, some z => some (((w * 16 + x) * 16 + y) * 16 + z, rest)
    | _, _, _, _ => none
  | _ => none

/-- The character of a numbered escape. A character above the basic plane takes two of them, and one
half alone is no character. -/
def numbered? (cs : List Char) : Option (Option Char × List Char) :=
  match hex4? cs with
  | none => none
  | some (n, rest) =>
    if 0xDC00 ≤ n && n ≤ 0xDFFF then some (none, rest)
    else if 0xD800 ≤ n && n ≤ 0xDBFF then
      match rest with
      | '\\' :: 'u' :: rest' =>
        match hex4? rest' with
        | some (m, rest'') =>
          if 0xDC00 ≤ m && m ≤ 0xDFFF then
            some (some (Char.ofNat (0x10000 + (n - 0xD800) * 0x400 + (m - 0xDC00))), rest'')
          else some (none, rest)
        | none => none
      | _ => some (none, rest)
    else some (some (Char.ofNat n), rest)

/-- The character of an escape, from after the backslash. -/
def escape? : List Char → Option (Option Char × List Char)
  | '"' :: rest => some (some '"', rest)
  | '\\' :: rest => some (some '\\', rest)
  | '/' :: rest => some (some '/', rest)
  | 'b' :: rest => some (some '\x08', rest)
  | 'f' :: rest => some (some '\x0c', rest)
  | 'n' :: rest => some (some '\n', rest)
  | 'r' :: rest => some (some '\r', rest)
  | 't' :: rest => some (some '\t', rest)
  | 'u' :: rest => numbered? rest
  | _ => none

/-- Puts a character in front of a text; both have to be whole. -/
def addChar : Option Char → Option (List Char) → Option (List Char)
  | some c, some text => some (c :: text)
  | _, _ => none

/-- The characters of a string up to its closing quote, if all of them are whole. -/
def string? : Nat → List Char → Option (Option (List Char) × List Char)
  | 0, _ => none
  | fuel + 1, cs =>
    match cs with
    | [] => none
    | '"' :: rest => some (some [], rest)
    | '\\' :: rest =>
      match escape? rest with
      | some (c, rest') => (string? fuel rest').map fun (text, after) => (addChar c text, after)
      | none => none
    | c :: rest =>
      if c.toNat < 0x20 then none
      else (string? fuel rest).map fun (text, after) => (addChar (some c) text, after)

/-- One or more digits. -/
def digits? (cs : List Char) : Option (List Char × List Char) :=
  match cs.takeWhile Char.isDigit with
  | [] => none
  | digits => some (digits, cs.dropWhile Char.isDigit)

/-- The whole part of a number: a zero alone, or digits that start with another. -/
def whole? : List Char → Option (List Char × List Char)
  | '0' :: rest => some (['0'], rest)
  | cs => digits? cs

/-- The digits of the fraction of a number, none if it has no fraction. -/
def fraction? : List Char → Option (List Char × List Char)
  | '.' :: rest => digits? rest
  | cs => some ([], cs)

/-- The exponent of a number, from after its letter. -/
def signedDigits? (cs : List Char) : Option (Int × List Char) :=
  (digits? (Text.dropSign cs)).map fun (digits, rest) =>
    let n : Int := Text.digitsValue digits
    (if cs.head? = some '-' then -n else n, rest)

/-- The exponent of a number, if it has one. -/
def exponent? : List Char → Option (Option Int × List Char)
  | c :: rest =>
    if c = 'e' ∨ c = 'E' then (signedDigits? rest).map fun (n, after) => (some n, after)
    else some (none, c :: rest)
  | [] => some (none, [])

/-- Whether a number is finite when its digits are taken as far as they fit in 64 bits. -/
def isFinite (whole fraction : List Char) (exponent : Int) : Bool :=
  let (n, k) := Text.appendDigits 0 whole
  let (m, j) := Text.appendDigits n fraction
  Text.isProductFinite m (exponent + (whole.length - k) - j)

/-- The value of the parts of a number. -/
def ofParts (negative : Bool) (whole fraction : List Char) (exponent : Option Int) : Document :=
  if !isFinite whole fraction (exponent.getD 0) then .unreadable
  else if fraction.isEmpty && exponent.isNone then
    let n : Int := Text.digitsValue whole
    .integer (if negative then -n else n)
  else .real

/-- A number. -/
def number? (cs : List Char) : Option (Document × List Char) :=
  let (negative, body) :=
    match cs with
    | '-' :: rest => (true, rest)
    | _ => (false, cs)
  match whole? body with
  | none => none
  | some (whole, rest) =>
    match fraction? rest with
    | none => none
    | some (fraction, rest) =>
      (exponent? rest).map fun (exponent, rest) =>
        (ofParts negative whole fraction exponent, rest)

/-- A given word. -/
def word? (word : String) (value : Document) (cs : List Char) : Option (Document × List Char) :=
  if word.toList.isPrefixOf cs then some (value, cs.drop word.toList.length) else none

/-- How many lists and objects may be nested in a value that can be read. -/
def maxDepth : Nat := 127

/-- A list or object inside `depth` others. -/
def nested (depth : Nat) (d : Document) : Document := if depth < maxDepth then d else .unreadable

/-- The value of a text, if it is whole. -/
def ofText : Option (List Char) → Document
  | some text => .text (.ofList text)
  | none => .unreadable

/-- Named values whose names are all whole. -/
def fields? : List (Option (List Char) × Document) → Option (List (String × Document))
  | [] => some []
  | (some name, v) :: rest => (fields? rest).map ((.ofList name, v) :: ·)
  | (none, _) :: _ => none

/-- The object of named values. -/
def ofMembers (members : List (Option (List Char) × Document)) : Document :=
  match fields? members with
  | some fields => .record fields
  | none => .unreadable

mutual

/-- A value inside `depth` lists and objects, after any blanks. -/
def value? (depth : Nat) : Nat → List Char → Option (Document × List Char)
  | 0, _ => none
  | fuel + 1, cs =>
    match skip cs with
    | '"' :: rest => (string? (rest.length + 1) rest).map fun (t, after) => (ofText t, after)
    | '[' :: rest =>
      match skip rest with
      | ']' :: after => some (nested depth (.list []), after)
      | _ => (items? (depth + 1) fuel rest).map fun (items, after) =>
          (nested depth (.list items), after)
    | '\x7b' :: rest =>
      match skip rest with
      | '\x7d' :: after => some (nested depth (.record []), after)
      | _ => (members? (depth + 1) fuel rest).map fun (members, after) =>
          (nested depth (ofMembers members), after)
    | 't' :: rest => word? "true" (.bool true) ('t' :: rest)
    | 'f' :: rest => word? "false" (.bool false) ('f' :: rest)
    | 'n' :: rest => word? "null" .null ('n' :: rest)
    | rest => number? rest

/-- One or more values with commas between them, up to the closing bracket. -/
def items? (depth : Nat) : Nat → List Char → Option (List Document × List Char)
  | 0, _ => none
  | fuel + 1, cs =>
    match value? depth fuel cs with
    | none => none
    | some (v, rest) =>
      match skip rest with
      | ']' :: after => some ([v], after)
      | ',' :: more => (items? depth fuel more).map fun (vs, after) => (v :: vs, after)
      | _ => none

/-- One or more named values with commas between them, up to the closing brace. -/
def members? (depth : Nat) :
    Nat → List Char → Option (List (Option (List Char) × Document) × List Char)
  | 0, _ => none
  | fuel + 1, cs =>
    match skip cs with
    | '"' :: rest =>
      match string? (rest.length + 1) rest with
      | none => none
      | some (name, rest) =>
        match skip rest with
        | ':' :: rest =>
          match value? depth fuel rest with
          | none => none
          | some (v, rest) =>
            match skip rest with
            | '\x7d' :: after => some ([(name, v)], after)
            | ',' :: more =>
              (members? depth fuel more).map fun (members, after) => ((name, v) :: members, after)
            | _ => none
        | _ => none
    | _ => none

end

/-- Reads a text that holds one value. -/
def parse? (input : String) : Option Document :=
  let cs := input.toList
  match value? 0 (cs.length + 1) cs with
  | some (d, rest) => if (skip rest).isEmpty then some d else none
  | none => none

end Json

end VirtualGraph
