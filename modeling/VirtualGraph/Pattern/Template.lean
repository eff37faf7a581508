import VirtualGraph.Text.Chars

/-!
# Templates

A template is text with column names between braces. The two braces and the backslash stand for
themselves after a backslash. A column name is not empty and holds no brace.

A template is read piece by piece, each piece one character or one column. Reading stops at the
first place where no piece starts, and that place is where a malformed template is reported.
-/

namespace VirtualGraph

/-- One segment of a template. -/
inductive TemplatePart where
  | text (text : String)
  | column (name : String)
  deriving DecidableEq

/-- What a template holds where it cannot be read on. -/
inductive TemplateProblem where
  | unclosed
  | unmatched
  | escape
  | unexpected
  deriving DecidableEq

/-- Why a template is malformed, and the byte offset where reading stopped. -/
structure TemplateFault where
  template : String
  position : Nat
  problem : TemplateProblem
  deriving DecidableEq

namespace Template

/-- A character or a column. -/
inductive Piece where
  | char (c : Char)
  | column (name : List Char)
  deriving DecidableEq

def isBrace (c : Char) : Bool := c == '\x7b' || c == '\x7d'

/-- The characters that a backslash makes literal. -/
def isSpecial (c : Char) : Bool := isBrace c || c == '\\'

/-- The piece at the start of a text, and the text after it. -/
def piece? : List Char → Option (Piece × List Char)
  | [] => none
  | c :: cs =>
    if c = '\x7b' then
      match cs.takeWhile (!isBrace ·), cs.dropWhile (!isBrace ·) with
      | d :: name, '\x7d' :: rest => some (.column (d :: name), rest)
      | _, _ => none
    else if c = '\\' then
      match cs with
      | d :: rest => if isSpecial d then some (.char d, rest) else none
      | [] => none
    else if c = '\x7d' then none
    else some (.char c, cs)

/-- A piece is not empty. -/
theorem length_lt_of_piece? {cs rest : List Char} {p : Piece} (h : piece? cs = some (p, rest)) :
    rest.length < cs.length := by
  cases cs with
  | nil => simp [piece?] at h
  | cons c cs =>
    have hd : (cs.dropWhile (!isBrace ·)).length ≤ cs.length :=
      (List.dropWhile_suffix _).length_le
    simp only [piece?] at h
    split at h
    · split at h
      · rename_i hr
        cases h
        simp only [hr, List.length_cons] at hd ⊢
        omega
      · cases h
    · split at h
      · split at h
        · split at h
          · cases h; simp only [List.length_cons]; omega
          · cases h
        · cases h
      · split at h
        · cases h
        · cases h; simp

/-- The pieces that can be read, and the text where reading stops. -/
def pieces (cs : List Char) : List Piece × List Char :=
  match h : piece? cs with
  | none => ([], cs)
  | some (p, rest) =>
    have := length_lt_of_piece? h
    let (ps, stop) := pieces rest
    (p :: ps, stop)
termination_by cs.length

/-- Puts a piece in front of the parts that follow it, with neighbouring characters in one text. -/
def addPiece : Piece → List TemplatePart → List TemplatePart
  | .char c, .text t :: parts => .text (String.ofList (c :: t.toList)) :: parts
  | .char c, parts => .text (String.ofList [c]) :: parts
  | .column name, parts => .column (String.ofList name) :: parts

/-- What stops reading at a text that starts no piece. -/
def problemAt : List Char → TemplateProblem
  | '\x7b' :: _ => .unclosed
  | '\x7d' :: _ => .unmatched
  | '\\' :: _ => .escape
  | _ => .unexpected

/-- Reads a whole template. -/
def parse (template : String) : Except TemplateFault (List TemplatePart) :=
  let cs := template.toList
  match pieces cs with
  | (ps, []) => .ok (ps.foldr addPiece [])
  | (_, stop) =>
    .error
      { template
        position := Text.byteLength cs - Text.byteLength stop
        problem := problemAt stop }

/-- The columns of a template, in order of appearance. -/
def columns (parts : List TemplatePart) : List String :=
  parts.filterMap fun
    | .column name => some name
    | .text _ => none

end Template

namespace TemplateProblem

def message : TemplateProblem → String
  | unclosed => "unclosed or nested '\x7b'"
  | unmatched => "unmatched '\x7d'"
  | escape => "invalid escape sequence"
  | unexpected => "unexpected character"

end TemplateProblem

end VirtualGraph
