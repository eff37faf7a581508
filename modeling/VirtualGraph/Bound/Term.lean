import VirtualGraph.Algebra.Term
import VirtualGraph.Mapping.Basic
import VirtualGraph.Pattern.Comparison

/-!
# Shapes of terms

What is known about a term before any row is read: its shape, which is its kind with its datatype
and language, and the pattern of its text. Two terms with different shapes are never equal, and
neither are two whose patterns are disjoint.
-/

namespace VirtualGraph

/-- The kind of a term. A literal without a datatype is the same as one of the string datatype, so
the shape names no string datatype; languages are in lower case. -/
structure TermShape where
  termType : TermType
  datatype : Option String
  language : Option String
  deriving DecidableEq

namespace TermShape

def iri : TermShape := ⟨.iri, none, none⟩

def plainLiteral : TermShape := ⟨.literal, none, none⟩

/-- The datatype, unless it is the string datatype. -/
def normalDatatype (datatype : Option String) : Option String :=
  datatype.filter (· ≠ xsd ++ "string")

def ofLiteral (l : Literal) : TermShape :=
  ⟨.literal, normalDatatype l.datatype, l.language.map Text.lower⟩

/-- The shape of a constant. -/
def ofTerm? : Term → Option TermShape
  | .var _ => none
  | .iri _ => some iri
  | .literal l => some (ofLiteral l)

def ofTermMap (m : TermMap) (table : LogicalTable) : TermShape :=
  ⟨m.termType, normalDatatype (m.effectiveDatatype? table), m.language.map Text.lower⟩

end TermShape

/-- The terms of one shape with a text from a pattern. -/
structure BoundTerm where
  pattern : Pattern
  shape : TermShape
  deriving DecidableEq

namespace BoundTerm

/-- The only term that a constant stands for. -/
def ofTerm? : Term → Option BoundTerm
  | .var _ => none
  | .iri i => some ⟨.ofText i true, .iri⟩
  | .literal l => some ⟨.ofText l.value false, .ofLiteral l⟩

/-- Whether two terms may be equal. -/
def canEqual (a b : BoundTerm) : Bool :=
  a.shape == b.shape && !(a.pattern.compare b.pattern).neverMatch

/-- Whether a term of a query may stand for a bound term. A variable may stand for any. -/
def canMatch (t : Term) (b : BoundTerm) : Bool :=
  match ofTerm? t with
  | some a => a.canEqual b
  | none => true

/-- Whether every binding may equal the first of its name, given the first ones so far. -/
def agreeFrom (firsts : List (String × BoundTerm)) : List (String × BoundTerm) → Bool
  | [] => true
  | (name, term) :: rest =>
    match firsts.lookup name with
    | some first => first.canEqual term && agreeFrom firsts rest
    | none => agreeFrom ((name, term) :: firsts) rest

/-- Whether the first term of each name may equal every later term of that name. -/
def agree (bindings : List (String × BoundTerm)) : Bool := agreeFrom [] bindings

end BoundTerm

end VirtualGraph
