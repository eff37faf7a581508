import VirtualGraph.Algebra.Lexeme
import VirtualGraph.Fault

/-!
# Forms

The nested lists that the lexemes of a query stand for. A form remembers the byte offset where it
starts, so that what is wrong with it can be reported there. A text that is no form at all is
reported where the outermost form should start.
-/

namespace VirtualGraph

/-- A list of forms, a variable, a term or a symbol. -/
inductive Form where
  | list (items : List Form) (position : Nat)
  | var (name : String) (position : Nat)
  | term (term : Term) (position : Nat)
  | symbol (name : String) (position : Nat)

namespace Form

def position : Form → Nat
  | list _ p | var _ p | term _ p | symbol _ p => p

/-- The start of each open list, innermost first, with the items read so far in reverse. -/
abbrev Open := List (Nat × List Form)

/-- Where reading a form stands after one more lexeme. -/
inductive Progress where
  | stuck
  | complete (form : Form)
  | within (lists : Open)

/-- Puts a finished form where it belongs: into the innermost open list, or, outside any list, as
the whole form. -/
def place (form : Form) : Open → Progress
  | [] => .complete form
  | (start, items) :: outer => .within ((start, form :: items) :: outer)

/-- Reads one lexeme. -/
def advance (lists : Open) (lexeme : Lexeme) : Progress :=
  match lexeme.token with
  | .opening => .within ((lexeme.position, []) :: lists)
  | .closing =>
    match lists with
    | [] => .stuck
    | (start, items) :: outer => place (list items.reverse start) outer
  | .var name => place (var name lexeme.position) lists
  | .term t => place (term t lexeme.position) lists
  | .symbol name => place (symbol name lexeme.position) lists

/-- Assembles the first complete form of a lexeme sequence, and the text after it. -/
def assemble : Open → List Lexeme → Option (Form × List Char)
  | _, [] => none
  | lists, lexeme :: rest =>
    match advance lists lexeme with
    | .stuck => none
    | .complete form => some (form, lexeme.rest)
    | .within lists' => assemble lists' rest

/-- How much of an unreadable text is shown. -/
def excerptLength : Nat := 20

/-- Reads a text that holds one form. -/
def read (input : String) : Result Form :=
  let cs := input.toList
  match assemble [] (Lexeme.scan (Text.byteLength cs) cs) with
  | none =>
    let start := cs.dropWhile Text.isLayout
    .error <| .form (Text.byteLength cs - Text.byteLength start)
      (.unreadable (String.ofList (start.take excerptLength)))
  | some (form, after) =>
    match after.dropWhile Text.isLayout with
    | [] => .ok form
    | rest =>
      .error <| .form (Text.byteLength cs - Text.byteLength rest) (.trailing (String.ofList rest))

end Form

end VirtualGraph
