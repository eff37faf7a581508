import VirtualGraph.Document.Basic
import VirtualGraph.Text.Magnitude
import VirtualGraph.Text.Percent

/-!
# TOML documents

A reader of TOML text without dates and multi-line strings. A document is a sequence of statements:
headers, which say what table the following statements belong to, and pairs of a key and a value.
Values may be nested, and keys may have parts, only up to a limit. The functions on nested values
take the length of the text as fuel.
-/

namespace VirtualGraph

namespace Toml

/-- A statement: a table header, a header of a new table in a list, or a pair. -/
inductive Statement where
  | table (path : List String)
  | listed (path : List String)
  | pair (path : List String) (value : Document)

/-- Blanks within a line. -/
def isSpace (c : Char) : Bool := c == ' ' || c == '\t'

def skip (cs : List Char) : List Char := cs.dropWhile isSpace

/-- The characters of comments and strings: no control but the tab. -/
def isTextChar (c : Char) : Bool := c == '\t' || (0x20 ≤ c.toNat && c.toNat ≠ 0x7F)

/-- The text after an optional comment, which ends before the line does. -/
def skipComment (cs : List Char) : List Char :=
  match cs with
  | '#' :: rest => rest.dropWhile isTextChar
  | _ => cs

/-- The text after a line break. -/
def newline? : List Char → Option (List Char)
  | '\n' :: rest => some rest
  | '\r' :: '\n' :: rest => some rest
  | _ => none

/-- Skips blanks, comments and line breaks. -/
def skipLines : Nat → List Char → List Char
  | 0, cs => cs
  | fuel + 1, cs =>
    let rest := skipComment (skip cs)
    match newline? rest with
    | some after => skipLines fuel after
    | none => rest

/-- The characters of a key without quotes. -/
def isKeyChar (c : Char) : Bool := c.isAlphanum || c == '_' || c == '-'

/-- The number that a list of hexadecimal digits writes. -/
def hexNumber? (cs : List Char) : Option Nat :=
  cs.foldl (fun n c => match n, Text.hexValue? c with
    | some n, some d => some (16 * n + d)
    | _, _ => none) (some 0)

/-- The character that `count` hexadecimal digits name. -/
def numbered? (count : Nat) (cs : List Char) : Option (Char × List Char) :=
  if cs.length < count then none
  else
    match hexNumber? (cs.take count) with
    | some n => if n.isValidChar then some (Char.ofNat n, cs.drop count) else none
    | none => none

/-- The character of an escape, from after the backslash. -/
def escape? : List Char → Option (Char × List Char)
  | '"' :: rest => some ('"', rest)
  | '\\' :: rest => some ('\\', rest)
  | 'b' :: rest => some ('\x08', rest)
  | 'f' :: rest => some ('\x0c', rest)
  | 'n' :: rest => some ('\n', rest)
  | 'r' :: rest => some ('\r', rest)
  | 't' :: rest => some ('\t', rest)
  | 'u' :: rest => numbered? 4 rest
  | 'U' :: rest => numbered? 8 rest
  | _ => none

/-- The characters of a basic string up to its closing quote. -/
def basicString? : Nat → List Char → Option (List Char × List Char)
  | 0, _ => none
  | fuel + 1, cs =>
    match cs with
    | [] => none
    | '"' :: rest => some ([], rest)
    | '\\' :: rest =>
      match escape? rest with
      | some (c, rest') => (basicString? fuel rest').map fun (t, after) => (c :: t, after)
      | none => none
    | c :: rest =>
      if isTextChar c then (basicString? fuel rest).map fun (t, after) => (c :: t, after)
      else none

/-- The characters of a literal string up to its closing quote. -/
def literalString? (cs : List Char) : Option (List Char × List Char) :=
  match cs.dropWhile fun c => isTextChar c && c != '\'' with
  | '\'' :: rest => some (cs.takeWhile fun c => isTextChar c && c != '\'', rest)
  | _ => none

/-- One part of a key. -/
def keyPart? (cs : List Char) : Option (String × List Char) :=
  match cs with
  | '"' :: rest => (basicString? (rest.length + 1) rest).map fun (t, after) => (.ofList t, after)
  | '\'' :: rest => (literalString? rest).map fun (t, after) => (.ofList t, after)
  | _ =>
    match cs.takeWhile isKeyChar with
    | [] => none
    | part => some (.ofList part, cs.dropWhile isKeyChar)

/-- How many lists and inline tables may be nested, and how many parts a key may have. -/
def maxDepth : Nat := 79

/-- A key: at most `count` parts with points between them. -/
def keyParts? : Nat → List Char → Option (List String × List Char)
  | 0, _ => none
  | count + 1, cs =>
    match keyPart? (skip cs) with
    | none => none
    | some (part, rest) =>
      match skip rest with
      | '.' :: more => (keyParts? count more).map fun (parts, after) => (part :: parts, after)
      | after => some ([part], after)

/-- A key. -/
def key? (cs : List Char) : Option (List String × List Char) := keyParts? maxDepth cs

/-- Whether a digit sequence has an underscore only between two digits. -/
def wellSpaced (p : Char → Bool) : List Char → Bool
  | [] => false
  | [c] => p c
  | c :: '_' :: rest => p c && wellSpaced p rest
  | c :: rest => p c && wellSpaced p rest

def withoutUnderscores (cs : List Char) : List Char := cs.filter (· != '_')

/-- The value of digits in a base, if every digit belongs to it. -/
def based? (base : Nat) (cs : List Char) : Option Nat :=
  let isBaseDigit c := (Text.hexValue? c).any (· < base)
  if wellSpaced isBaseDigit cs then
    some ((withoutUnderscores cs).foldl (fun n c => base * n + (Text.hexValue? c).getD 0) 0)
  else none

/-- Whether decimal digits have no leading zero. -/
def isWhole (cs : List Char) : Bool :=
  wellSpaced Char.isDigit cs && Text.isCanonicalWhole (withoutUnderscores cs)

/-- An integer that fits in 64 bits, or nothing. -/
def fit? (n : Int) : Option Document :=
  let bound : Int := Nat.pow 2 63
  if -bound ≤ n && n < bound then some (.integer n) else none

/-- The exponent of a number, from after its letter. -/
def exponent? (cs : List Char) : Option Int :=
  let digits := Text.dropSign cs
  if wellSpaced Char.isDigit digits then
    let n : Int := Text.digitsValue (withoutUnderscores digits)
    some (if cs.head? = some '-' then -n else n)
  else none

def isExponentMark (c : Char) : Bool := c == 'e' || c == 'E'

/-- The fraction digits and the exponent in the text after the whole part of a number, which has at
least one of the two. -/
def tail? (cs : List Char) : Option (List Char × Int) :=
  match cs with
  | '.' :: rest =>
    let fraction := rest.takeWhile (!isExponentMark ·)
    if wellSpaced Char.isDigit fraction then
      match rest.dropWhile (!isExponentMark ·) with
      | [] => some (withoutUnderscores fraction, 0)
      | _ :: after => (exponent? after).map (withoutUnderscores fraction, ·)
    else none
  | c :: rest => if isExponentMark c then (exponent? rest).map ([], ·) else none
  | [] => none

/-- A number with a fraction or an exponent. Only a negative one may be infinite. -/
def real? (negative : Bool) (whole fraction : List Char) (exponent : Int) : Option Document :=
  if negative || Text.isDecimalFinite (whole ++ fraction) (exponent - fraction.length) then
    some .real
  else none

/-- The number that a word writes. -/
def number? (word : List Char) : Option Document :=
  match word with
  | '0' :: 'x' :: digits => (based? 16 digits).bind fun n => fit? n
  | '0' :: 'o' :: digits => (based? 8 digits).bind fun n => fit? n
  | '0' :: 'b' :: digits => (based? 2 digits).bind fun n => fit? n
  | _ =>
    let negative := word.head? = some '-'
    let body := Text.dropSign word
    if body = ['i', 'n', 'f'] ∨ body = ['n', 'a', 'n'] then some .real
    else
      let isDigitOrSpace c := c.isDigit || c == '_'
      let whole := body.takeWhile isDigitOrSpace
      let rest := body.dropWhile isDigitOrSpace
      if !isWhole whole then none
      else if rest.isEmpty then
        let n : Int := Text.digitsValue (withoutUnderscores whole)
        fit? (if negative then -n else n)
      else
        (tail? rest).bind fun (fraction, exponent) =>
          real? negative (withoutUnderscores whole) fraction exponent

/-- The characters of numbers and truth values. -/
def isWordChar (c : Char) : Bool := isKeyChar c || c == '+' || c == '.'

/-- The value of a word without quotes. -/
def word? (word : List Char) : Option Document :=
  if word = "true".toList then some (.bool true)
  else if word = "false".toList then some (.bool false)
  else number? word

/-- Adds a pair to the fields of an inline table. A key with several parts opens tables on its way,
which only keys of the same kind may extend; `opened` holds the paths of these. -/
def insertInline (opened : List (List String)) (base : List String) :
    List String → Document → List (String × Document) → Option (List (String × Document))
  | [], _, _ => none
  | [name], v, fields => if fields.any (·.1 = name) then none else some (fields ++ [(name, v)])
  | name :: path, v, fields =>
    match fields.lookup name with
    | none => (insertInline opened (base ++ [name]) path v []).map fun inner =>
        fields ++ [(name, .record inner)]
    | some (.record inner) =>
      if opened.contains (base ++ [name]) then
        (insertInline opened (base ++ [name]) path v inner).map fun inner' =>
          fields.map fun f => if f.1 = name then (name, .record inner') else f
      else none
    | some _ => none

/-- The proper beginnings of a key. -/
def openedBy (path : List String) : List (List String) :=
  (List.range (path.length - 1)).map fun n => path.take (n + 1)

/-- The record of the pairs of an inline table. -/
def inlineRecord? (pairs : List (List String × Document)) : Option Document :=
  (pairs.foldl (fun state pair => match state with
    | none => none
    | some (opened, fields) =>
      (insertInline opened [] pair.1 pair.2 fields).map fun fields' =>
        (opened ++ openedBy pair.1, fields')) (some ([], []))).map fun (_, fields) => .record fields

mutual

/-- A value inside `depth` lists and inline tables. -/
def value? (depth : Nat) : Nat → List Char → Option (Document × List Char)
  | 0, _ => none
  | fuel + 1, cs =>
    match cs with
    | '"' :: rest =>
      (basicString? (rest.length + 1) rest).map fun (t, after) => (.text (.ofList t), after)
    | '\'' :: rest => (literalString? rest).map fun (t, after) => (.text (.ofList t), after)
    | '[' :: rest =>
      if depth < maxDepth then
        (items? (depth + 1) fuel rest).map fun (items, after) => (.list items, after)
      else none
    | '\x7b' :: rest =>
      if depth < maxDepth then
        match skip rest with
        | '\x7d' :: after => some (.record [], after)
        | _ =>
          match pairs? (depth + 1) fuel rest with
          | none => none
          | some (pairs, after) => (inlineRecord? pairs).map fun d => (d, after)
      else none
    | _ =>
      match cs.takeWhile isWordChar with
      | [] => none
      | word => (word? word).map fun d => (d, cs.dropWhile isWordChar)

/-- The items of a list up to its closing bracket. A comma may follow the last. -/
def items? (depth : Nat) : Nat → List Char → Option (List Document × List Char)
  | 0, _ => none
  | fuel + 1, cs =>
    match skipLines (cs.length + 1) cs with
    | ']' :: after => some ([], after)
    | start =>
      match value? depth fuel start with
      | none => none
      | some (v, rest) =>
        match skipLines (rest.length + 1) rest with
        | ']' :: after => some ([v], after)
        | ',' :: more => (items? depth fuel more).map fun (vs, after) => (v :: vs, after)
        | _ => none

/-- The pairs of an inline table up to its closing brace. -/
def pairs? (depth : Nat) : Nat → List Char → Option (List (List String × Document) × List Char)
  | 0, _ => none
  | fuel + 1, cs =>
    match key? cs with
    | some (path, '=' :: rest) =>
      match value? depth fuel (skip rest) with
      | none => none
      | some (v, rest) =>
        match skip rest with
        | '\x7d' :: after => some ([(path, v)], after)
        | ',' :: more => (pairs? depth fuel more).map fun (ps, after) => ((path, v) :: ps, after)
        | _ => none
    | _ => none

end

/-- One statement, from its first character. -/
def statement? (cs : List Char) : Option (Statement × List Char) :=
  match cs with
  | '[' :: '[' :: rest =>
    match key? rest with
    | some (path, ']' :: ']' :: after) => some (.listed path, after)
    | _ => none
  | '[' :: rest =>
    match key? rest with
    | some (path, ']' :: after) => some (.table path, after)
    | _ => none
  | _ =>
    match key? cs with
    | some (path, '=' :: rest) =>
      (value? 0 (rest.length + 1) (skip rest)).map fun (v, after) => (.pair path v, after)
    | _ => none

/-- The text of the next line, from after a statement. -/
def lineEnd? (cs : List Char) : Option (List Char) :=
  match skipComment (skip cs) with
  | [] => some []
  | rest => newline? rest

/-- The statements of a text, one to a line. -/
def statements? : Nat → List Char → Option (List Statement)
  | 0, _ => none
  | fuel + 1, cs =>
    match skipLines (cs.length + 1) cs with
    | [] => some []
    | start =>
      match statement? start with
      | none => none
      | some (s, rest) =>
        match lineEnd? rest with
        | none => none
        | some after => (statements? fuel after).map (s :: ·)

end Toml

end VirtualGraph
