/-!
# Percent-encoded text

Decoding replaces each `%` that two hexadecimal digits follow by the byte they name and keeps every
other byte of the UTF-8 form. The bytes are then read as UTF-8, where each maximal part of an
ill-formed sequence becomes one replacement character.
-/

namespace VirtualGraph.Text

/-- The value of a hexadecimal digit in either case. -/
def hexValue? (c : Char) : Option Nat :=
  let n := c.toNat
  if 0x30 ≤ n && n ≤ 0x39 then some (n - 0x30)
  else if 0x41 ≤ n && n ≤ 0x46 then some (n - 0x37)
  else if 0x61 ≤ n && n ≤ 0x66 then some (n - 0x57)
  else none

/-- The bytes of the UTF-8 form of one character. -/
def utf8Bytes (c : Char) : List Nat :=
  let n := c.toNat
  if n < 0x80 then [n]
  else if n < 0x800 then [0xC0 + n / 0x40, 0x80 + n % 0x40]
  else if n < 0x10000 then [0xE0 + n / 0x1000, 0x80 + n / 0x40 % 0x40, 0x80 + n % 0x40]
  else
    [0xF0 + n / 0x40000, 0x80 + n / 0x1000 % 0x40, 0x80 + n / 0x40 % 0x40, 0x80 + n % 0x40]

/-- The bytes a percent-encoded text stands for. -/
def percentBytes : List Char → List Nat
  | [] => []
  | '%' :: a :: b :: rest =>
    match hexValue? a, hexValue? b with
    | some x, some y => (16 * x + y) :: percentBytes rest
    | _, _ => 0x25 :: percentBytes (a :: b :: rest)
  | c :: rest => utf8Bytes c ++ percentBytes rest

/-- How many continuation bytes a leading byte asks for, and the range of the first of them. No
other leading byte starts a character. -/
def leadingByte? (b : Nat) : Option (Nat × Nat × Nat) :=
  if 0xC2 ≤ b && b ≤ 0xDF then some (1, 0x80, 0xBF)
  else if b == 0xE0 then some (2, 0xA0, 0xBF)
  else if b == 0xED then some (2, 0x80, 0x9F)
  else if 0xE1 ≤ b && b ≤ 0xEF then some (2, 0x80, 0xBF)
  else if b == 0xF0 then some (3, 0x90, 0xBF)
  else if 0xF1 ≤ b && b ≤ 0xF3 then some (3, 0x80, 0xBF)
  else if b == 0xF4 then some (3, 0x80, 0x8F)
  else none

/-- What stands for an ill-formed part of a byte sequence. -/
def replacement : Char := '�'

/-- The payload of a leading byte that asks for `n` continuation bytes. -/
def leadingBits (n b : Nat) : Nat :=
  b % (if n == 1 then 0x20 else if n == 2 then 0x10 else 0x08)

/-- Where a decoder stands: between characters, or inside one that still needs `owed` bytes, the
next of them between `low` and `high`, with the bits read so far. -/
inductive Utf8State where
  | between
  | inside (owed low high bits : Nat)

/-- Starts a character with a byte that follows a complete one. -/
def startChar (b : Nat) : Utf8State × List Char :=
  if b < 0x80 then (.between, [Char.ofNat b])
  else
    match leadingByte? b with
    | some (owed, low, high) => (.inside owed low high (leadingBits owed b), [])
    | none => (.between, [replacement])

/-- Reads bytes as UTF-8. A byte that does not continue the character under way ends it with a
replacement character and starts afresh. -/
def decodeUtf8From : Utf8State → List Nat → List Char
  | .between, [] => []
  | .inside .., [] => [replacement]
  | .between, b :: rest =>
    let (state, out) := startChar b
    out ++ decodeUtf8From state rest
  | .inside owed low high bits, b :: rest =>
    if low ≤ b && b ≤ high then
      let bits := bits * 0x40 + (b - 0x80)
      if owed ≤ 1 then Char.ofNat bits :: decodeUtf8From .between rest
      else decodeUtf8From (.inside (owed - 1) 0x80 0xBF bits) rest
    else
      let (state, out) := startChar b
      replacement :: out ++ decodeUtf8From state rest

/-- The text a percent-encoded text stands for. -/
def percentDecode (s : String) : String :=
  String.ofList (decodeUtf8From .between (percentBytes s.toList))

end VirtualGraph.Text
