import VirtualGraph.Algebra.Term
import VirtualGraph.Text.Blank

/-!
# Lexemes of the query text

A query is written as nested parenthesized forms. The text is first cut into lexemes: parentheses,
variables, terms and symbols. Where several kinds of lexeme could start, the order below decides,
and a text that starts none of them ends the sequence.
-/

namespace VirtualGraph

/-- A piece of query text. -/
inductive Token where
  | opening
  | closing
  | var (name : String)
  | term (term : Term)
  | symbol (name : String)
  deriving DecidableEq

/-- A token, the byte offset where it starts and the text after it. -/
structure Lexeme where
  token : Token
  position : Nat
  rest : List Char

namespace Token

/-- The characters of variable names and symbols. -/
def isSymbolChar (c : Char) : Bool :=
  !Text.isBlank c && c != '(' && c != ')' && c != '"'

/-- The longest non-empty beginning of characters that satisfy a test, and the rest. -/
def word? (p : Char → Bool) (cs : List Char) : Option (List Char × List Char) :=
  match cs.takeWhile p with
  | [] => none
  | c :: w => some (c :: w, cs.dropWhile p)

/-- A question mark and a name. -/
def varName? : List Char → Option (String × List Char)
  | '?' :: cs => (word? isSymbolChar cs).map fun (name, rest) => (String.ofList name, rest)
  | _ => none

/-- An IRI between angle brackets, not empty and without a blank. -/
def iri? : List Char → Option (String × List Char)
  | '<' :: cs =>
    match word? (fun c => c != '>' && !Text.isBlank c) cs with
    | some (iri, '>' :: rest) => some (String.ofList iri, rest)
    | _ => none
  | _ => none

/-- The character that stands for another after a backslash. -/
def unescape? : Char → Option Char
  | '\\' => some '\\'
  | '"' => some '"'
  | 'n' => some '\n'
  | 't' => some '\t'
  | 'r' => some '\r'
  | _ => none

/-- The text of a literal up to its closing quote. -/
def literalText? : List Char → Option (List Char × List Char)
  | [] => none
  | '"' :: rest => some ([], rest)
  | '\\' :: c :: rest =>
    match unescape? c, literalText? rest with
    | some d, some (text, rest') => some (d :: text, rest')
    | _, _ => none
  | c :: rest =>
    if c = '\\' then none
    else (literalText? rest).map fun (text, rest') => (c :: text, rest')

/-- The characters of a language tag. -/
def isTagChar (c : Char) : Bool := c.isAlphanum || c == '-'

/-- The language tag at the start of a text. -/
def tag? : List Char → Option (String × List Char)
  | '@' :: cs =>
    (word? isTagChar cs).map fun (tag, rest) => (Text.lower (String.ofList tag), rest)
  | _ => none

/-- The datatype at the start of a text. -/
def datatype? : List Char → Option (String × List Char)
  | '^' :: '^' :: cs => iri? cs
  | _ => none

/-- A quoted text with a language tag or, without one, with a datatype. -/
def literal? : List Char → Option (Literal × List Char)
  | '"' :: cs =>
    (literalText? cs).map fun (text, rest) =>
      let value := String.ofList text
      match tag? rest with
      | some (tag, rest') => (.tagged value tag, rest')
      | none =>
        match datatype? rest with
        | some (datatype, rest') => (.typed value datatype, rest')
        | none => (.plain value, rest)
  | _ => none

/-- Whether a word ends here, so that no symbol character follows. -/
def endsWord : List Char → Bool
  | [] => true
  | c :: _ => !isSymbolChar c

/-- The text after a given word. -/
def afterWord? (word : List Char) (cs : List Char) : Option (List Char) :=
  if word.isPrefixOf cs && endsWord (cs.drop word.length) then some (cs.drop word.length) else none

/-- One of the two truth values. -/
def boolean? (cs : List Char) : Option (Literal × List Char) :=
  match afterWord? "true".toList cs with
  | some rest => some (.typed "true" (xsd ++ "boolean"), rest)
  | none =>
    match afterWord? "false".toList cs with
    | some rest => some (.typed "false" (xsd ++ "boolean"), rest)
    | none => none

/-- A point and digits, if both are there. -/
def fraction (cs : List Char) : List Char × List Char :=
  match cs with
  | '.' :: rest =>
    match word? Char.isDigit rest with
    | some (digits, rest') => ('.' :: digits, rest')
    | none => ([], cs)
  | _ => ([], cs)

/-- One leading sign, if there is one. -/
def sign : List Char → List Char × List Char
  | [] => ([], [])
  | c :: cs => if c = '+' ∨ c = '-' then ([c], cs) else ([], c :: cs)

/-- An integer or a decimal number. -/
def number? (cs : List Char) : Option (Literal × List Char) :=
  let (minus, rest) := sign cs
  match word? Char.isDigit rest with
  | none => none
  | some (whole, rest) =>
    let (part, rest) := fraction rest
    if endsWord rest then
      let type := if part.isEmpty then "integer" else "decimal"
      some (.typed (String.ofList (minus ++ whole ++ part)) (xsd ++ type), rest)
    else none

/-- A name of symbol characters. -/
def symbol? (cs : List Char) : Option (String × List Char) :=
  (word? isSymbolChar cs).map fun (name, rest) => (String.ofList name, rest)

/-- The token at the start of a text, and the text after it. -/
def next? (cs : List Char) : Option (Token × List Char) :=
  match cs with
  | '(' :: rest => some (.opening, rest)
  | ')' :: rest => some (.closing, rest)
  | _ =>
    ((varName? cs).map fun (name, rest) => (.var name, rest)) <|>
    ((iri? cs).map fun (iri, rest) => (.term (.iri iri), rest)) <|>
    ((literal? cs).map fun (literal, rest) => (.term (.literal literal), rest)) <|>
    ((boolean? cs).map fun (literal, rest) => (.term (.literal literal), rest)) <|>
    ((number? cs).map fun (literal, rest) => (.term (.literal literal), rest)) <|>
    ((symbol? cs).map fun (name, rest) => (.symbol name, rest))

theorem length_lt_of_word? {p : Char → Bool} {cs w rest : List Char}
    (h : word? p cs = some (w, rest)) : rest.length < cs.length := by
  unfold word? at h
  split at h
  · cases h
  · rename_i c w' heq
    cases h
    have := congrArg List.length (List.takeWhile_append_dropWhile (p := p) (l := cs))
    simp only [heq, List.length_append, List.length_cons] at this
    omega

theorem length_lt_of_varName? {cs rest : List Char} {name : String}
    (h : varName? cs = some (name, rest)) : rest.length < cs.length := by
  unfold varName? at h
  split at h
  · obtain ⟨⟨w, r⟩, hw, he⟩ := Option.map_eq_some_iff.1 h
    cases he
    have := length_lt_of_word? hw
    simp; omega
  · cases h

theorem length_lt_of_iri? {cs rest : List Char} {iri : String}
    (h : iri? cs = some (iri, rest)) : rest.length < cs.length := by
  unfold iri? at h
  split at h
  · split at h
    · rename_i hw
      cases h
      have := length_lt_of_word? hw
      simp at this ⊢; omega
    · cases h
  · cases h

theorem length_lt_of_literalText? {cs text rest : List Char}
    (h : literalText? cs = some (text, rest)) : rest.length < cs.length := by
  fun_induction literalText? cs generalizing text rest with
  | case1 => cases h
  | case2 => cases h; simp
  | case3 c rest d text' rest' hr hd ih => cases h; have := ih hr; simp; omega
  | case4 => cases h
  | case5 => cases h
  | case6 c rest _ _ _ ih =>
    obtain ⟨⟨t, r⟩, ht, he⟩ := Option.map_eq_some_iff.1 h
    cases he
    have := ih ht
    simp; omega

theorem length_lt_of_tag? {cs rest : List Char} {tag : String}
    (h : tag? cs = some (tag, rest)) : rest.length < cs.length := by
  unfold tag? at h
  split at h
  · obtain ⟨⟨w, r⟩, hw, he⟩ := Option.map_eq_some_iff.1 h
    cases he
    have := length_lt_of_word? hw
    simp; omega
  · cases h

theorem length_lt_of_datatype? {cs rest : List Char} {datatype : String}
    (h : datatype? cs = some (datatype, rest)) : rest.length < cs.length := by
  unfold datatype? at h
  split at h
  · have := length_lt_of_iri? h
    simp; omega
  · cases h

theorem length_lt_of_literal? {cs rest : List Char} {literal : Literal}
    (h : literal? cs = some (literal, rest)) : rest.length < cs.length := by
  unfold literal? at h
  split at h
  · obtain ⟨⟨t, r⟩, ht, he⟩ := Option.map_eq_some_iff.1 h
    have hr := length_lt_of_literalText? ht
    simp only at he
    split at he
    · rename_i htag
      cases he
      have := length_lt_of_tag? htag
      simp; omega
    · split at he
      · rename_i hdatatype
        cases he
        have := length_lt_of_datatype? hdatatype
        simp; omega
      · cases he
        simp; omega
  · cases h

theorem length_lt_of_afterWord? {word cs rest : List Char} (hw : word ≠ [])
    (h : afterWord? word cs = some rest) : rest.length < cs.length := by
  unfold afterWord? at h
  split at h
  · rename_i hp
    cases h
    rw [Bool.and_eq_true, List.isPrefixOf_iff_prefix] at hp
    have := hp.1.length_le
    have := List.length_pos_iff.2 hw
    simp; omega
  · cases h

theorem length_lt_of_boolean? {cs rest : List Char} {literal : Literal}
    (h : boolean? cs = some (literal, rest)) : rest.length < cs.length := by
  unfold boolean? at h
  split at h
  · rename_i hr
    cases h
    exact length_lt_of_afterWord? (by decide) hr
  · split at h
    · rename_i hr
      cases h
      exact length_lt_of_afterWord? (by decide) hr
    · cases h

theorem length_fraction (cs : List Char) : (fraction cs).2.length ≤ cs.length := by
  unfold fraction
  split
  · split
    · rename_i hw
      have := length_lt_of_word? hw
      simp; omega
    · exact Nat.le_refl _
  · exact Nat.le_refl _

theorem length_sign (cs : List Char) : (sign cs).2.length ≤ cs.length := by
  cases cs with
  | nil => exact Nat.le_refl _
  | cons c cs => simp only [sign]; split <;> simp

theorem length_lt_of_number? {cs rest : List Char} {literal : Literal}
    (h : number? cs = some (literal, rest)) : rest.length < cs.length := by
  unfold number? at h
  simp only at h
  split at h
  · cases h
  · rename_i hw
    split at h
    · cases h
      have h₁ := length_sign cs
      have h₂ := length_lt_of_word? hw
      have h₃ := length_fraction
      exact Nat.lt_of_le_of_lt (h₃ _) (Nat.lt_of_lt_of_le h₂ h₁)
    · cases h

theorem length_lt_of_symbol? {cs rest : List Char} {name : String}
    (h : symbol? cs = some (name, rest)) : rest.length < cs.length := by
  obtain ⟨⟨w, r⟩, hw, he⟩ := Option.map_eq_some_iff.1 h
  cases he
  exact length_lt_of_word? hw

/-- A token is not empty. -/
theorem length_lt_of_next? {cs rest : List Char} {token : Token}
    (h : next? cs = some (token, rest)) : rest.length < cs.length := by
  unfold next? at h
  split at h
  · cases h; simp
  · cases h; simp
  · simp only [Option.orElse_eq_orElse, Option.orElse_eq_or, Option.or_eq_some_iff,
      Option.map_eq_some_iff, Prod.exists, Prod.mk.injEq] at h
    rcases h with ⟨_, _, h, _, rfl⟩ | ⟨_, h⟩
    · exact length_lt_of_varName? h
    rcases h with ⟨_, _, h, _, rfl⟩ | ⟨_, h⟩
    · exact length_lt_of_iri? h
    rcases h with ⟨_, _, h, _, rfl⟩ | ⟨_, h⟩
    · exact length_lt_of_literal? h
    rcases h with ⟨_, _, h, _, rfl⟩ | ⟨_, h⟩
    · exact length_lt_of_boolean? h
    rcases h with ⟨_, _, h, _, rfl⟩ | ⟨_, _, _, h, _, rfl⟩
    · exact length_lt_of_number? h
    · exact length_lt_of_symbol? h

end Token

namespace Lexeme

/-- The lexemes at the end of a text of `total` bytes, up to the first place where none starts. What
remains to be read says where a lexeme starts. -/
def scan (total : Nat) (cs : List Char) : List Lexeme :=
  let text := cs.dropWhile Text.isLayout
  match _h : Token.next? text with
  | none => []
  | some (token, rest) => ⟨token, total - Text.byteLength text, rest⟩ :: scan total rest
termination_by cs.length
decreasing_by
  have h₁ := (List.dropWhile_suffix (p := Text.isLayout) (l := cs)).length_le
  have h₂ := Token.length_lt_of_next? _h
  simp only [text] at h₂
  omega

end Lexeme

end VirtualGraph
