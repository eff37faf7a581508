import VirtualGraph.Sql.Type
import VirtualGraph.Text.Chars

/-!
# Terms and triple patterns
-/

namespace VirtualGraph

/-- A literal: its text, with a datatype or a language if it has one. -/
structure Literal where
  value : String
  datatype : Option String
  language : Option String
  deriving DecidableEq

/-- A term of a triple pattern: a variable, or an IRI or a literal as a constant. -/
inductive Term where
  | var (name : String)
  | iri (iri : String)
  | literal (literal : Literal)
  deriving DecidableEq

/-- A triple with variables. -/
structure TriplePattern where
  subject : Term
  predicate : Term
  object : Term
  deriving DecidableEq

namespace Literal

def plain (value : String) : Literal := ⟨value, none, none⟩

def typed (value datatype : String) : Literal := ⟨value, some datatype, none⟩

def tagged (value language : String) : Literal := ⟨value, none, some language⟩

/-- The truth value of a boolean literal. -/
def bool? (l : Literal) : Option Bool :=
  if l.datatype = some (xsd ++ "boolean") then
    if l.value = "true" ∨ l.value = "1" then some true
    else if l.value = "false" ∨ l.value = "0" then some false
    else none
  else none

/-- The text of a literal with a backslash before each quote and backslash. -/
def escape (value : String) : List Char :=
  value.toList.flatMap fun c => if c = '\\' ∨ c = '"' then ['\\', c] else [c]

/-- The written form of a literal. A language wins over a datatype. -/
def display (l : Literal) : String :=
  let quoted := String.ofList ('"' :: escape l.value ++ ['"'])
  match l.language, l.datatype with
  | some language, _ => quoted ++ "@" ++ language
  | none, some datatype => quoted ++ "^^<" ++ datatype ++ ">"
  | none, none => quoted

end Literal

namespace Term

def varName? : Term → Option String
  | var name => some name
  | _ => none

def display : Term → String
  | var name => "?" ++ name
  | iri i => "<" ++ i ++ ">"
  | literal l => l.display

end Term

namespace TriplePattern

def terms (t : TriplePattern) : List Term := [t.subject, t.predicate, t.object]

def display (t : TriplePattern) : String :=
  "(triple " ++ t.subject.display ++ " " ++ t.predicate.display ++ " " ++ t.object.display ++ ")"

end TriplePattern

/-- The variables of a triple pattern, in order and with repetitions. -/
def TriplePattern.variables (t : TriplePattern) : List String := t.terms.filterMap Term.varName?

end VirtualGraph
