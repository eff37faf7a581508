import Mathlib.Data.List.Forall2
import Mathlib.Data.List.TakeWhile
import VirtualGraph.Proofs.Text.Letters
import VirtualGraph.Sql.Dialect

/-!
# Quoted texts are read back

How a database reads a string literal and a dotted identifier at the start of a text, and that what
is written by quoting is read back as it was. The text that follows is arbitrary, as long as its
first character does not continue the literal or the identifier; so nothing inside the quotes, marks
and backslashes included, can end them.

Inside quotes a mark that is written twice stands for itself, and a backslash escapes the character
after it where the dialect says so. A word without quotes is read in lower case, and is no
identifier if it is reserved.
-/

namespace VirtualGraph

namespace Text

/-- The pieces between separators are those of the library's `splitOn`. -/
theorem splitAtChar_eq_splitOn (sep : Char) (cs : List Char) :
    splitAtChar sep cs = cs.splitOn sep := by
  induction cs with
  | nil => rw [splitAtChar, List.splitOn_nil]
  | cons c cs ih =>
    rw [splitAtChar, List.splitOn_cons_eq_if_modifyHead, ih]
    by_cases hc : c = sep
    · simp [hc]
    · obtain ⟨piece, pieces, hpieces⟩ := List.exists_cons_of_ne_nil (List.splitOn_ne_nil sep cs)
      simp [hc, hpieces]

theorem toList_join (sep : String) (ss : List String) :
    (join sep ss).toList = sep.toList.intercalate (ss.map String.toList) := by
  induction ss with
  | nil => rfl
  | cons s ss ih =>
    cases ss with
    | nil => simp [join]
    | cons s' ss =>
      rw [join, String.toList_append, String.toList_append, ih]
      simp [List.intercalate_cons_cons]

end Text

namespace Dialect

/-! ### How a database reads -/

/-- What a backslash and the character after it stand for. Wildcards keep the backslash, for the
pattern that they may be part of. -/
def backslashed : Char → List Char
  | '0' => ['\x00']
  | 'b' => ['\x08']
  | 'n' => ['\n']
  | 'r' => ['\r']
  | 't' => ['\t']
  | 'Z' => ['\x1a']
  | '%' => ['\\', '%']
  | '_' => ['\\', '_']
  | c => [c]

/-- Reads up to the closing mark, and returns what is between the quotes and what follows them. -/
def readEnclosed (escapes : Bool) (mark : Char) : List Char → Option (List Char × List Char)
  | [] => none
  | [c] => if c = mark then some ([], []) else none
  | c :: d :: rest =>
    if c = mark then
      if d = mark then (readEnclosed escapes mark rest).map (Prod.map (mark :: ·) id)
      else some ([], d :: rest)
    else if escapes ∧ c = '\\' then
      (readEnclosed escapes mark rest).map (Prod.map (backslashed d ++ ·) id)
    else (readEnclosed escapes mark (d :: rest)).map (Prod.map (c :: ·) id)

section

variable {escapes : Bool} {mark : Char}

@[simp] theorem readEnclosed_doubled (rest : List Char) :
    readEnclosed escapes mark (mark :: mark :: rest) =
      (readEnclosed escapes mark rest).map (Prod.map (mark :: ·) id) := by
  rw [readEnclosed, if_pos rfl, if_pos rfl]

/-- A mark closes if no other follows. -/
theorem readEnclosed_closed {rest : List Char} (h : rest.head? ≠ some mark) :
    readEnclosed escapes mark (mark :: rest) = some ([], rest) := by
  cases rest with
  | nil => rw [readEnclosed, if_pos rfl]
  | cons d rest =>
    have hd : d ≠ mark := fun heq => h (congrArg some heq)
    rw [readEnclosed, if_pos rfl, if_neg hd]

theorem readEnclosed_escaped (hescapes : escapes = true) (hmark : '\\' ≠ mark) (d : Char)
    (rest : List Char) : readEnclosed escapes mark ('\\' :: d :: rest) =
      (readEnclosed escapes mark rest).map (Prod.map (backslashed d ++ ·) id) := by
  rw [readEnclosed, if_neg hmark, if_pos ⟨hescapes, rfl⟩]

theorem readEnclosed_plain {c : Char} (hc : c ≠ mark) (hescape : ¬(escapes ∧ c = '\\'))
    (rest : List Char) : readEnclosed escapes mark (c :: rest) =
      (readEnclosed escapes mark rest).map (Prod.map (c :: ·) id) := by
  cases rest with
  | nil => rw [readEnclosed, Option.map_none, readEnclosed, if_neg hc]
  | cons d rest => rw [readEnclosed, if_neg hc, if_neg hescape]

theorem length_lt_of_readEnclosed {cs text rest : List Char}
    (h : readEnclosed escapes mark cs = some (text, rest)) : rest.length < cs.length := by
  induction cs using readEnclosed.induct escapes mark generalizing text with
  | case1 => cases h
  | case2 =>
    rw [readEnclosed, if_pos rfl] at h
    cases h
    exact Nat.zero_lt_one
  | case3 c hc =>
    rw [readEnclosed, if_neg hc] at h
    cases h
  | case4 cs ih =>
    rw [readEnclosed_doubled] at h
    obtain ⟨r, hr, heq⟩ := Option.map_eq_some_iff.mp h
    cases heq
    exact Nat.lt_add_right 2 (ih hr)
  | case5 d cs hd =>
    rw [readEnclosed, if_pos rfl, if_neg hd] at h
    cases h
    exact Nat.lt_succ_self _
  | case6 c d cs hc hescape ih =>
    rw [readEnclosed, if_neg hc, if_pos hescape] at h
    obtain ⟨r, hr, heq⟩ := Option.map_eq_some_iff.mp h
    cases heq
    exact Nat.lt_add_right 2 (ih hr)
  | case7 c d cs hc hescape ih =>
    rw [readEnclosed, if_neg hc, if_neg hescape] at h
    obtain ⟨r, hr, heq⟩ := Option.map_eq_some_iff.mp h
    cases heq
    exact Nat.lt_add_right 1 (ih hr)

end

/-- Whether a backslash in a string literal escapes. -/
def hasEscapes : Dialect → Bool
  | mysql => true
  | _ => false

/-- Reads a string literal, and returns its value and what follows it. -/
def readString (d : Dialect) : List Char → Option (List Char × List Char)
  | [] => none
  | c :: cs => if c = '\'' then readEnclosed d.hasEscapes '\'' cs else none

/-- The mark around a quoted identifier. -/
def identifierMark : Dialect → Char
  | mysql => '\x60'
  | _ => '"'

/-- The characters that a word may start with. -/
def isWordStart (c : Char) : Bool := c.isUpper || c.isLower || c == '_' || decide (0x80 ≤ c.toNat)

/-- The characters that a word may go on with. -/
def isWordChar (c : Char) : Bool := isWordStart c || c.isDigit || c == '$'

/-- Reads one part of an identifier, and returns its name and what follows it. -/
def readPart (d : Dialect) : List Char → Option (List Char × List Char)
  | [] => none
  | c :: cs =>
    if c = d.identifierMark then readEnclosed false d.identifierMark cs
    else
      let name := (c :: cs.takeWhile isWordChar).map Char.toLower
      if isWordStart c ∧ String.ofList name ∉ reservedWords then
        some (name, cs.dropWhile isWordChar)
      else none

theorem length_lt_of_readPart {d : Dialect} {cs name rest : List Char}
    (h : d.readPart cs = some (name, rest)) : rest.length < cs.length := by
  cases cs with
  | nil => cases h
  | cons c cs =>
    rw [readPart] at h
    split at h
    · exact Nat.lt_add_right 1 (length_lt_of_readEnclosed h)
    · dsimp only at h
      split at h
      · cases h
        exact Nat.lt_succ_of_le (List.dropWhile_suffix _).length_le
      · cases h

/-- Reads an identifier, and returns the names of its parts and what follows it. A dot goes on with
a further part. -/
def readIdentifier (d : Dialect) (cs : List Char) : Option (List (List Char) × List Char) :=
  match h : d.readPart cs with
  | none => none
  | some (name, '.' :: rest) =>
    have : rest.length < cs.length := Nat.lt_of_succ_lt (length_lt_of_readPart h)
    (d.readIdentifier rest).map (Prod.map (name :: ·) id)
  | some (name, rest) => some ([name], rest)
termination_by cs.length

/-! ### What is written between quotes -/

/-- How one character is written between quotes. -/
def spelled (escapes : Bool) (mark c : Char) : List Char :=
  if c = mark then [mark, mark] else if escapes ∧ c = '\\' then ['\\', '\\'] else [c]

section

variable {escapes : Bool} {mark : Char}

/-- The written form of a character is read as that character, before any text. -/
theorem readEnclosed_spelled (hmark : '\\' ≠ mark) (c : Char) (rest : List Char) :
    readEnclosed escapes mark (spelled escapes mark c ++ rest) =
      (readEnclosed escapes mark rest).map (Prod.map (c :: ·) id) := by
  unfold spelled
  split
  · rename_i hc
    rw [hc]
    exact readEnclosed_doubled rest
  · rename_i hc
    split
    · rename_i hescape
      rw [hescape.2]
      exact readEnclosed_escaped hescape.1 hmark '\\' rest
    · rename_i hescape
      exact readEnclosed_plain hc hescape rest

/-- What is written between quotes is read back up to the closing mark. -/
theorem readEnclosed_flatMap_spelled (hmark : '\\' ≠ mark) (cs : List Char) {rest : List Char}
    (hrest : rest.head? ≠ some mark) :
    readEnclosed escapes mark (cs.flatMap (spelled escapes mark) ++ mark :: rest) =
      some (cs, rest) := by
  induction cs with
  | nil => exact readEnclosed_closed hrest
  | cons c cs ih =>
    rw [List.flatMap_cons, List.append_assoc, readEnclosed_spelled hmark, ih]
    rfl

end

/-- Where nothing escapes, each character is written by itself. -/
theorem enclose_append (mark : Char) (cs rest : List Char) :
    enclose mark cs ++ rest = mark :: (cs.flatMap (spelled false mark) ++ mark :: rest) := by
  have hspelled : (fun c => if c = mark then [mark, mark] else [c]) = spelled false mark := by
    funext c
    simp [spelled]
  simp [enclose, Text.replaceChar, hspelled]

/-- Doubling the backslashes first and the marks after them leaves each character written by
itself. -/
theorem enclose_replaceChar_append {mark : Char} (hmark : '\\' ≠ mark) (cs rest : List Char) :
    enclose mark (Text.replaceChar '\\' ['\\', '\\'] cs) ++ rest =
      mark :: (cs.flatMap (spelled true mark) ++ mark :: rest) := by
  have hspelled : ∀ c : Char,
      (if c = '\\' then ['\\', '\\'] else [c]).flatMap (spelled false mark) =
        spelled true mark c := by
    intro c
    by_cases hc : c = '\\'
    · simp [spelled, hc, hmark]
    · simp [spelled, hc]
  rw [enclose_append, Text.replaceChar, List.flatMap_assoc]
  simp only [hspelled]

theorem toList_stringLiteral_append (d : Dialect) (t : String) (rest : List Char) :
    (d.stringLiteral t).toList ++ rest =
      '\'' :: (t.toList.flatMap (spelled d.hasEscapes '\'') ++ '\'' :: rest) := by
  have hplain : (String.ofList (enclose '\'' t.toList)).toList ++ rest =
      '\'' :: (t.toList.flatMap (spelled false '\'') ++ '\'' :: rest) := by
    rw [String.toList_ofList, enclose_append]
  cases d with
  | postgres => exact hplain
  | mysql =>
    show (String.ofList _).toList ++ rest = _
    rw [String.toList_ofList, enclose_replaceChar_append (by decide)]
    rfl
  | sqlite => exact hplain

/-- A string literal is read as its text. -/
theorem readString_stringLiteral (d : Dialect) (t : String) {rest : List Char}
    (hrest : rest.head? ≠ some '\'') :
    d.readString ((d.stringLiteral t).toList ++ rest) = some (t.toList, rest) := by
  rw [toList_stringLiteral_append, readString, if_pos rfl]
  exact readEnclosed_flatMap_spelled (by decide) t.toList hrest

/-! ### What is written for identifiers -/

section

variable {d : Dialect} {part rest : List Char}

theorem isWordStart_of_isPlainChar {c : Char} (h : isPlainChar c = true)
    (hdigit : c.isDigit = false) : isWordStart c = true := by
  simp only [isPlainChar, hdigit, Bool.or_false, Bool.or_eq_true, beq_iff_eq] at h
  rcases h with h | h
  · simp [isWordStart, h]
  · simp [isWordStart, h]

theorem isWordChar_of_isPlainChar {c : Char} (h : isPlainChar c = true) : isWordChar c = true := by
  cases hdigit : c.isDigit with
  | true => simp [isWordChar, hdigit]
  | false => simp [isWordChar, isWordStart_of_isPlainChar h hdigit]

/-- Folding to lower case leaves plain characters alone. -/
theorem toLower_of_isPlainChar {c : Char} (h : isPlainChar c = true) : c.toLower = c := by
  apply Text.toLower_of_not_isUpper
  simp only [isPlainChar, Bool.or_eq_true, beq_iff_eq, Text.isLower_iff, Text.isDigit_iff] at h
  rw [Text.isUpper_iff]
  rcases h with (h | h) | rfl
  · omega
  · omega
  · decide

theorem ne_identifierMark_of_isPlainChar {c : Char} (h : isPlainChar c = true) :
    c ≠ d.identifierMark := by
  rintro rfl
  cases d <;> exact absurd h (by decide)

/-- A word without quotes whose name no database changes: it is in lower case and not reserved. -/
structure IsFoldedWord (word : List Char) : Prop where
  chars : ∀ c ∈ word, c.isLower = true ∨ c.isDigit = true ∨ c = '_'
  folded : word.map Char.toLower = word
  notReserved : String.ofList word ∉ reservedWords

theorem isPlain_iff : isPlain part = true ↔ part ≠ [] ∧ (∀ c ∈ part, isPlainChar c = true) ∧
    (∀ c ∈ part.head?, c.isDigit = false) ∧ String.ofList part ∉ reservedWords := by
  cases part with
  | nil => simp [isPlain]
  | cons c part => simp [isPlain, and_assoc]

theorem isFoldedWord_of_isPlain (h : isPlain part = true) : IsFoldedWord part := by
  obtain ⟨-, hchars, -, hreserved⟩ := isPlain_iff.mp h
  refine ⟨fun c hc => ?_, ?_, hreserved⟩
  · simpa [isPlainChar, or_assoc] using hchars c hc
  · rw [List.map_congr_left fun c hc => toLower_of_isPlainChar (hchars c hc), List.map_id']

theorem readPart_enclose (d : Dialect) (part : List Char)
    (hrest : rest.head? ≠ some d.identifierMark) :
    d.readPart (enclose d.identifierMark part ++ rest) = some (part, rest) := by
  have hmark : '\\' ≠ d.identifierMark := by cases d <;> decide
  rw [enclose_append, readPart, if_pos rfl]
  exact readEnclosed_flatMap_spelled hmark part hrest

/-- A plain word is read up to its end, in the case that it has. -/
theorem readPart_plain (h : isPlain part = true)
    (hrest : ∀ c ∈ rest.head?, isWordChar c = false) :
    d.readPart (part ++ rest) = some (part, rest) := by
  obtain ⟨hne, hchars, hdigit, hreserved⟩ := isPlain_iff.mp h
  have hfolded := (isFoldedWord_of_isPlain h).folded
  obtain ⟨c, cs, rfl⟩ := List.exists_cons_of_ne_nil hne
  have hc := hchars c List.mem_cons_self
  have hcs : ∀ c ∈ cs, isWordChar c = true := fun c hc =>
    isWordChar_of_isPlainChar (hchars c (List.mem_cons_of_mem _ hc))
  have htake : (cs ++ rest).takeWhile isWordChar = cs := by
    rw [List.takeWhile_append_of_pos hcs]
    cases rest with
    | nil => simp
    | cons e rest => simp [hrest e rfl]
  have hdrop : (cs ++ rest).dropWhile isWordChar = rest := by
    rw [List.dropWhile_append_of_pos hcs]
    cases rest with
    | nil => rfl
    | cons e rest => simp [hrest e rfl]
  have hstart : isWordStart c = true := isWordStart_of_isPlainChar hc (hdigit c rfl)
  rw [List.cons_append, readPart, if_neg (ne_identifierMark_of_isPlainChar hc)]
  simp only [htake, hdrop, hfolded]
  rw [if_pos ⟨hstart, hreserved⟩]

/-- How a dialect writes one part of an identifier. -/
def writePart : Dialect → List Char → List Char
  | mysql => enclose '\x60'
  | _ => quotePart

theorem toList_identifier (d : Dialect) (name : String) :
    (d.identifier name).toList = ['.'].intercalate ((name.toList.splitOn '.').map d.writePart) := by
  have honParts : d.identifier name = onParts d.writePart name := by cases d <;> rfl
  rw [honParts, onParts, Text.toList_join, Text.splitAtChar_eq_splitOn, List.map_map]
  congr 1
  exact List.map_congr_left fun part _ => String.toList_ofList

/-- Each part stands between marks, or is a word that needs none. -/
theorem writePart_eq (d : Dialect) (part : List Char) :
    d.writePart part = enclose d.identifierMark part ∨
      d ≠ mysql ∧ d.writePart part = part ∧ isPlain part = true := by
  have hquote :
      quotePart part = enclose '"' part ∨ quotePart part = part ∧ isPlain part = true := by
    unfold quotePart
    split
    · rename_i hplain
      exact .inr ⟨rfl, hplain⟩
    · exact .inl rfl
  cases d with
  | mysql => exact .inl rfl
  | postgres => exact hquote.imp_right fun h => ⟨by decide, h⟩
  | sqlite => exact hquote.imp_right fun h => ⟨by decide, h⟩

/-- A part is over where a text goes on with something else than a word or a mark. -/
def EndsPart (d : Dialect) (rest : List Char) : Prop :=
  ∀ c ∈ rest.head?, isWordChar c = false ∧ c ≠ d.identifierMark

theorem readPart_writePart (d : Dialect) (part : List Char) (hrest : d.EndsPart rest) :
    d.readPart (d.writePart part ++ rest) = some (part, rest) := by
  rcases d.writePart_eq part with hwrite | ⟨-, hwrite, hplain⟩
  · rw [hwrite]
    exact readPart_enclose d part fun hmark => (hrest _ hmark).2 rfl
  · rw [hwrite]
    exact readPart_plain hplain fun c hc => (hrest c hc).1

theorem readIdentifier_last {cs name : List Char} (hpart : d.readPart cs = some (name, rest))
    (hrest : rest.head? ≠ some '.') : d.readIdentifier cs = some ([name], rest) := by
  rw [readIdentifier]
  split
  · simp_all
  · rename_i heq
    rw [hpart] at heq
    cases heq
    exact absurd rfl hrest
  · simp_all

theorem readIdentifier_dot {cs name : List Char}
    (hpart : d.readPart cs = some (name, '.' :: rest)) :
    d.readIdentifier cs = (d.readIdentifier rest).map (Prod.map (name :: ·) id) := by
  rw [readIdentifier]
  split <;> simp_all

/-- An identifier is read as the names of its parts. -/
theorem readIdentifier_intercalate (d : Dialect) {parts : List (List Char)} (hparts : parts ≠ [])
    (hrest : d.EndsPart rest) (hdot : rest.head? ≠ some '.') :
    d.readIdentifier (['.'].intercalate (parts.map d.writePart) ++ rest) = some (parts, rest) := by
  induction parts with
  | nil => exact absurd rfl hparts
  | cons part parts ih =>
    cases parts with
    | nil =>
      rw [List.map_singleton, List.intercalate_singleton]
      exact readIdentifier_last (readPart_writePart d part hrest) hdot
    | cons next parts =>
      have hends : d.EndsPart
          ('.' :: (['.'].intercalate ((next :: parts).map d.writePart) ++ rest)) := by
        intro c hc
        cases hc
        cases d <;> decide
      have hpart := readPart_writePart d part hends
      rw [List.map_cons, List.map_cons, List.intercalate_cons_cons, ← List.map_cons,
        List.append_assoc, List.append_assoc, List.singleton_append, readIdentifier_dot hpart,
        ih (List.cons_ne_nil next parts)]
      rfl

end

/-- How the text of one part of an identifier stands for its name: between marks, or as a word that
is in lower case and not reserved, which no database changes. -/
def SpellsPart (d : Dialect) (part text : List Char) : Prop :=
  text = enclose d.identifierMark part ∨ d ≠ mysql ∧ text = part ∧ IsFoldedWord part

/-- Quoting cannot be left from inside. A string literal is read as its text and an identifier as
the parts of its name, whatever they hold and whatever follows that does not continue them; and only
words that are read as they are stand without marks. -/
theorem quoted_read_back (d : Dialect) :
    (∀ t k : String, k.toList.head? ≠ some '\'' →
      d.readString (d.stringLiteral t ++ k).toList = some (t.toList, k.toList)) ∧
    (∀ n k : String,
      (∀ c ∈ k.toList.head?, isWordChar c = false ∧ c ≠ d.identifierMark ∧ c ≠ '.') →
      d.readIdentifier (d.identifier n ++ k).toList = some (n.toList.splitOn '.', k.toList)) ∧
    ∀ n : String, ∃ texts, (d.identifier n).toList = ['.'].intercalate texts ∧
      List.Forall₂ d.SpellsPart (n.toList.splitOn '.') texts := by
  refine ⟨fun t k hk => ?_, fun n k hk => ?_, fun n => ?_⟩
  · rw [String.toList_append]
    exact readString_stringLiteral d t hk
  · rw [String.toList_append, toList_identifier]
    apply readIdentifier_intercalate d (List.splitOn_ne_nil _ _)
    · exact fun c hc => ⟨(hk c hc).1, (hk c hc).2.1⟩
    · exact fun hdot => (hk '.' hdot).2.2 rfl
  · refine ⟨_, toList_identifier d n, ?_⟩
    rw [List.forall₂_map_right_iff, List.forall₂_same]
    intro part _
    refine (d.writePart_eq part).imp_right fun h => ?_
    exact ⟨h.1, h.2.1, isFoldedWord_of_isPlain h.2.2⟩

/-- Marks, quotes and backslashes at both ends of a text, and a name with a reserved part, an empty
one and one that holds a mark. -/
theorem quoted_read_back_marks :
    mysql.readString (mysql.stringLiteral "'\\'; --\\" ++ ")").toList =
      some ("'\\'; --\\".toList, [')']) ∧
    sqlite.readIdentifier (sqlite.identifier "main.order..a\"b" ++ " AS s0").toList =
      some (["main".toList, "order".toList, [], "a\"b".toList], " AS s0".toList) ∧
    ∃ texts, (postgres.identifier "main.order").toList = ['.'].intercalate texts ∧
      List.Forall₂ postgres.SpellsPart ["main".toList, "order".toList] texts := by
  refine ⟨?_, ?_, ?_⟩
  · exact (quoted_read_back mysql).1 "'\\'; --\\" ")" (by decide)
  · apply (quoted_read_back sqlite).2.1 "main.order..a\"b" " AS s0"
    intro c hc
    cases hc
    decide
  · exact (quoted_read_back postgres).2.2 "main.order"

end Dialect

end VirtualGraph
