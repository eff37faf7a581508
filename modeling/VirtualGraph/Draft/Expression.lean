import VirtualGraph.Algebra.Expression
import VirtualGraph.Draft.Equality

/-!
# Expressions over bindings

The conditions and values of query expressions, in terms of the columns and variables of a block.
-/

namespace VirtualGraph

/-- A computed value with what is known about it. -/
structure Computed where
  scalar : Scalar
  type : SqlType
  shape : Shape
  nullable : Bool
  escaped : Bool

/-- What an expression can see. -/
structure ExpressionScope where
  table : VariableTable
  columns : ColumnIndex
  bindings : Bindings

namespace ExpressionScope

def binding? (s : ExpressionScope) (name : String) : Option Binding := s.bindings.lookup name

/-- The value of a variable; null if it is not bound. -/
def variableValue (s : ExpressionScope) (name : String) : Result Computed :=
  match s.binding? name with
  | some b => do
    let x ← b.toScalar s.columns
    .ok ⟨x, b.type s.table, b.shape, b.nullable, b.escaped⟩
  | none => .ok ⟨.null, .string, .unknown, true, false⟩

end ExpressionScope

namespace Expression

def unsupported (e : Expression) (obstacle : Obstacle) : Fault :=
  .unsupported (.expression e obstacle)

/-- A plain literal computed from other values. -/
def plainText (x : Scalar) (nullable : Bool) : Computed :=
  ⟨x, .string, .known .plainLiteral, nullable, false⟩

/-- The first of several values that is not null. -/
def firstValue (values : List Computed) : Computed :=
  let shape :=
    match values with
    | [] => .unknown
    | v :: rest => rest.foldl (fun s w => s.merge w.shape) v.shape
  { scalar := .coalesce (values.map (·.scalar))
    type := (SqlType.commonAll (values.map (·.type))).getD .string
    shape
    nullable := values.all (·.nullable)
    escaped := values.all (·.escaped) }

mutual

/-- The value of an expression. -/
def value (s : ExpressionScope) : Expression → Result Computed
  | var name => s.variableValue name
  | constant (.var name) => s.variableValue name
  | constant (.iri i) => .ok ⟨.constant i .string, .string, .known .iri, false, false⟩
  | constant (.literal l) =>
    let type := (l.datatype.bind SqlType.ofXsd?).getD .string
    .ok ⟨.constant l.value type, type, .known (.ofLiteral l), false, false⟩
  | str inner => do
    let v ← value s inner
    .ok ⟨v.scalar, v.type, .known .plainLiteral, v.nullable, false⟩
  | lang inner => do
    let v ← value s inner
    match v.shape.language? with
    | some x => .ok (plainText x v.nullable)
    | none => .error (unsupported (lang inner) .unknownLanguage)
  | concat items => do
    let values ← valueEach s items
    .ok (plainText (.concat (values.map (·.scalar))) (values.any (·.nullable)))
  | coalesce items => do
    let values ← valueEach s items
    .ok (firstValue values)
  | e => .error (unsupported e .conditionValue)
termination_by structural x => x

def valueEach (s : ExpressionScope) : List Expression → Result (List Computed)
  | [] => .ok []
  | e :: rest => do
    let v ← value s e
    let vs ← valueEach s rest
    .ok (v :: vs)
termination_by structural x => x

end

/-- A term whose pattern is known: a variable bound to a term map, or an IRI. -/
def term? (s : ExpressionScope) : Expression → Option BoundTerm
  | var name =>
    match s.binding? name with
    | some (.term t) => some t
    | _ => none
  | constant (.iri i) => BoundTerm.ofTerm? (.iri i)
  | _ => none

def literalText? : Expression → Option String
  | constant (.literal l) => some l.value
  | _ => none

/-- Whether an expression is a variable with an escaped text. -/
def isEscapedVariable (s : ExpressionScope) : Expression → Bool
  | var name => (s.binding? name).any Binding.escaped
  | _ => false

/-- One side of a comparison. An IRI that is compared with an escaped text is decoded. -/
def operand (s : ExpressionScope) (e other : Expression) : Result Computed := do
  let v ← value s e
  match e, v.scalar with
  | constant (.iri i), .constant _ type =>
    if isEscapedVariable s other then .ok { v with scalar := .constant (Text.percentDecode i) type }
    else .ok v
  | _, _ => .ok v

/-- The comparison of two values. -/
def compareValues (s : ExpressionScope) (op : Comparator) (l r : Expression) :
    Result Condition := do
  let x ← operand s l r
  let y ← operand s r l
  if op = .eq ∧ x.shape.disjoint y.shape then .ok .never
  else .ok (.compare op x.scalar y.scalar)

/-- A comparison. IRIs are equal as terms, which their patterns decide. -/
def comparison (s : ExpressionScope) (op : Comparator) (l r : Expression) : Result Condition :=
  match op, term? s l, term? s r with
  | .eq, some a, some b =>
    if a.shape.termType = .iri ∨ b.shape.termType = .iri then a.equality s.columns b
    else compareValues s op l r
  | .ne, some a, some b =>
    if a.shape.termType = .iri ∨ b.shape.termType = .iri then
      (a.equality s.columns b).map .not
    else compareValues s op l r
  | _, _, _ => compareValues s op l r

/-- A text in a `LIKE` pattern, with `!` before every character that has a meaning there. -/
def likeText (text : String) : String :=
  String.ofList <| text.toList.flatMap fun c =>
    if c = '!' ∨ c = '%' ∨ c = '_' then ['!', c] else [c]

/-- Whether the text of a value fits a pattern made from a constant part. -/
def likeCondition (s : ExpressionScope) (whole value' part : Expression)
    (pattern : String → String) : Result Condition :=
  match part.literalText? with
  | some text => do
    let v ← value s value'
    .ok (.like v.scalar (pattern (likeText text)))
  | none => .error (unsupported whole .stringArgument)

mutual

/-- The condition that an expression states. -/
def condition (s : ExpressionScope) : Expression → Result Condition
  | constant (.literal l) =>
    match l.bool? with
    | some true => .ok .always
    | some false => .ok .never
    | none => .error (unsupported (constant (.literal l)) .nonBooleanConstant)
  | constant t => .error (unsupported (constant t) .effectiveBooleanValue)
  | var name => .error (unsupported (var name) .effectiveBooleanValue)
  | and items => do
    let cs ← conditionEach s items
    .ok (.and cs)
  | or items => do
    let cs ← conditionEach s items
    .ok (.or cs)
  | not inner => do
    let c ← condition s inner
    .ok (.not c)
  | bound name =>
    match (s.binding? name).map Binding.nullVariable? with
    | none => .ok .never
    | some none => .ok .always
    | some (some v) => .ok (.notNull v)
  | compare op l r => comparison s op l r
  | langMatches language range =>
    match range.literalText? with
    | some text => do
      let v ← value s language
      .ok (.langMatches v.scalar (Text.lower text))
    | none => .error (unsupported (langMatches language range) .languageRange)
  | strStarts v part => likeCondition s (strStarts v part) v part fun t => t ++ "%"
  | strEnds v part => likeCondition s (strEnds v part) v part fun t => "%" ++ t
  | contains v part => likeCondition s (contains v part) v part fun t => "%" ++ t ++ "%"
  | e => .error (unsupported e .stringCondition)
termination_by structural x => x

def conditionEach (s : ExpressionScope) : List Expression → Result (List Condition)
  | [] => .ok []
  | e :: rest => do
    let c ← condition s e
    let cs ← conditionEach s rest
    .ok (c :: cs)
termination_by structural x => x

end

end Expression

end VirtualGraph
