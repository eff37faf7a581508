/-!
# Numerals

Tests and readers for written numbers. A column value is compared with a constant only when the
constant is spelled the way the value itself would be, so canonical spellings matter here: each
number has exactly one.
-/

namespace VirtualGraph.Text

/-- The value of a list of decimal digits, most significant first. -/
def digitsValue (cs : List Char) : Nat :=
  cs.foldl (fun n c => 10 * n + (c.toNat - 0x30)) 0

/-- At least one character, all of them decimal digits. -/
def isDigits (cs : List Char) : Bool :=
  !cs.isEmpty && cs.all Char.isDigit

/-- The largest bound of a slice. -/
def maxBound : Nat := Nat.pow 2 64 - 1

/-- Reads a bound: decimal digits, after a plus sign if there is one, of a value that fits. -/
def bound? (s : String) : Option Nat :=
  let digits :=
    match s.toList with
    | '+' :: rest => rest
    | cs => cs
  if isDigits digits && digitsValue digits ≤ maxBound then some (digitsValue digits) else none

/-- Digits without a redundant leading zero. -/
def isCanonicalWhole (cs : List Char) : Bool :=
  isDigits cs && (cs.length == 1 || cs.head? != some '0')

/-- Whether a text is the decimal form of a signed 64-bit integer. -/
def isCanonicalInteger (s : String) : Bool :=
  match s.toList with
  | '-' :: digits =>
    isCanonicalWhole digits && digits.head? != some '0' && digitsValue digits ≤ Nat.pow 2 63
  | digits => isCanonicalWhole digits && digitsValue digits < Nat.pow 2 63

/-- Splits at the first point; `none` in second place when there is no point. -/
def splitPoint : List Char → List Char × Option (List Char)
  | [] => ([], none)
  | c :: cs =>
    if c = '.' then ([], some cs)
    else
      let (whole, fraction) := splitPoint cs
      (c :: whole, fraction)

/-- Whether a text is a decimal number with no redundant digit or sign: zero has no sign, the whole
part no leading zero and the fraction no trailing one. -/
def isCanonicalDecimal (s : String) : Bool :=
  let (negative, digits) :=
    match s.toList with
    | '-' :: rest => (true, rest)
    | cs => (false, cs)
  let (whole, fraction) := splitPoint digits
  isCanonicalWhole whole
    && (match fraction with
      | some f => isDigits f && f.getLast? != some '0'
      | none => !(negative && whole == ['0']))

/-- Drops one leading sign. -/
def dropSign : List Char → List Char
  | c :: cs => if c = '+' || c = '-' then cs else c :: cs
  | [] => []

/-- Whether an exponent is absent or well formed: a letter `e`, a sign if there is one, digits. -/
def isExponent : List Char → Bool
  | [] => true
  | c :: cs => (c == 'e' || c == 'E') && isDigits (dropSign cs)

/-- Whether a text is a number in positional or exponent notation, which needs a digit before or
after the point. -/
def isNumber (s : String) : Bool :=
  let body := dropSign s.toList
  let whole := body.takeWhile Char.isDigit
  match body.dropWhile Char.isDigit with
  | '.' :: rest =>
    (!whole.isEmpty || !(rest.takeWhile Char.isDigit).isEmpty)
      && isExponent (rest.dropWhile Char.isDigit)
  | rest => !whole.isEmpty && isExponent rest

end VirtualGraph.Text
