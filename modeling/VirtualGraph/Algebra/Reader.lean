import VirtualGraph.Algebra.Form
import VirtualGraph.Algebra.Query
import VirtualGraph.Text.Numeral

/-!
# Reading queries

A form is read as a query, a graph pattern or an expression by the symbol at its head. The first
fault met is the answer, so the order in which the parts of a form are read is part of the meaning:
the modifiers of a query read the query inside first, left joins and filters read their condition
first, and bindings are read after the pattern they extend.
-/

namespace VirtualGraph

namespace Form

/-- A fault at the start of a form. -/
def fault (f : Form) (problem : FormProblem) : Fault := .form f.position problem

/-- Reads a term of a triple pattern. -/
def toTerm : Form → Result Term
  | .var name _ => .ok (.var name)
  | .term t _ => .ok t
  | .symbol name position =>
    .error <| .form position (if "_:".toList.isPrefixOf name.toList then .blankNode else .notTerm)
  | .list _ position => .error (.form position .notTerm)

/-- Reads a variable list. -/
def toNames : List Form → Result (List String)
  | [] => .ok []
  | .var name _ :: rest => (toNames rest).map (name :: ·)
  | f :: _ => .error (f.fault .notVariable)

/-- Reads a projection. -/
def toProjection : Form → Result (List String)
  | .list items _ => toNames items
  | f => .error (f.fault .notVariableList)

/-- Reads a bound of a slice; an underscore is no bound. -/
def toBound : Form → Result (Option Nat)
  | .symbol "_" _ => .ok none
  | .term (.literal l) position =>
    match Text.bound? l.value with
    | some n => .ok (some n)
    | none => .error (.form position (.sliceBound l.value))
  | f => .error (f.fault .notSliceBound)

/-- The comparison that a head names. -/
def comparator? : String → Option Comparator
  | "=" => some .eq
  | "!=" => some .ne
  | "<" => some .lt
  | "<=" => some .le
  | ">" => some .gt
  | ">=" => some .ge
  | _ => none

/-- A fault of a form with the wrong number of arguments. -/
def arityFault (position : Nat) (head : String) (expected found : Nat) : Fault :=
  .form position (.arity head expected found)

mutual

/-- Reads an expression. -/
def toExpression : Form → Result Expression
  | .var name _ => .ok (.var name)
  | .term t _ => .ok (.constant t)
  | .symbol _ position => .error (.form position .notExpression)
  | .list (.symbol head _ :: args) position =>
    match comparator? head with
    | some op => binary position head (.compare op) args
    | none =>
      match Text.lower head with
      | "&&" => (toExpressions args).map .and
      | "||" => (toExpressions args).map .or
      | "!" | "not" => unary position head .not args
      | "bound" =>
        match args with
        | [.var name _] => .ok (.bound name)
        | _ => .error (.form position .boundArity)
      | "lang" => unary position head .lang args
      | "str" => unary position head .str args
      | "langmatches" => binary position head .langMatches args
      | "strstarts" => binary position head .strStarts args
      | "strends" => binary position head .strEnds args
      | "contains" => binary position head .contains args
      | "concat" => (toExpressions args).map .concat
      | "coalesce" => (toExpressions args).map .coalesce
      | _ => .error (.unsupported (.function head position))
  | .list _ position => .error (.form position .noOperator)

/-- Reads the argument of a function of one argument. -/
def unary (position : Nat) (head : String) (make : Expression → Expression) :
    List Form → Result Expression
  | [a] => (toExpression a).map make
  | args => .error (arityFault position head 1 args.length)

/-- Reads the arguments of a function of two arguments. -/
def binary (position : Nat) (head : String) (make : Expression → Expression → Expression) :
    List Form → Result Expression
  | [a, b] => do
    let l ← toExpression a
    let r ← toExpression b
    return make l r
  | args => .error (arityFault position head 2 args.length)

/-- Reads a list of expressions. -/
def toExpressions : List Form → Result (List Expression)
  | [] => .ok []
  | f :: rest => do
    let e ← toExpression f
    let es ← toExpressions rest
    return e :: es

end

/-- Reads a condition: one expression, or a list of them that all have to hold. -/
def toCondition : Form → Result Expression
  | .list (.symbol "exprlist" _ :: args) _ => (toExpressions args).map .and
  | f => toExpression f

/-- Reads bindings and extends a pattern by them, first to last. -/
def extendBy (pattern : GraphPattern) : List Form → Result GraphPattern
  | [] => .ok pattern
  | .list [.var name _, value] _ :: rest => do
    let value ← toExpression value
    extendBy (.extend pattern name value) rest
  | f :: _ => .error (f.fault .notBinding)

/-- Joins the triples of a basic graph pattern. -/
def basic : List GraphPattern → GraphPattern
  | [] => .unit
  | [p] => p
  | ps => .join ps

mutual

/-- Reads a graph pattern. -/
def toPattern : Form → Result GraphPattern
  | .list (.symbol head _ :: args) position =>
    match head with
    | "bgp" => (toPatterns args).map basic
    | "triple" =>
      match args with
      | [s, p, o] => do
        let s ← s.toTerm
        let p ← p.toTerm
        let o ← o.toTerm
        return .triple ⟨s, p, o⟩
      | _ => .error (arityFault position head 3 args.length)
    | "join" => (toPatterns args).map .join
    | "union" => (toPatterns args).map .union
    | "leftjoin" =>
      match args with
      | [left, right] => do
        let left ← toPattern left
        let right ← toPattern right
        return .leftJoin left right none
      | [left, right, condition] => do
        let condition ← condition.toCondition
        let left ← toPattern left
        let right ← toPattern right
        return .leftJoin left right (some condition)
      | _ => .error (.form position .leftJoinArity)
    | "filter" =>
      match args with
      | [condition, inner] => do
        let condition ← condition.toCondition
        let inner ← toPattern inner
        return .filter condition inner
      | _ => .error (arityFault position head 2 args.length)
    | "extend" =>
      match args with
      | [.list bindings _, inner] => do
        let inner ← toPattern inner
        extendBy inner bindings
      | [f, _] => .error (f.fault .notBindingList)
      | _ => .error (arityFault position head 2 args.length)
    | "table" =>
      match args with
      | [.symbol "unit" _] => .ok .unit
      | _ => .error (.form position .table)
    | _ => .error (.form position (.operator head))
  | .list _ position => .error (.form position .noOperator)
  | f => .error (f.fault .noForm)

/-- Reads a list of graph patterns. -/
def toPatterns : List Form → Result (List GraphPattern)
  | [] => .ok []
  | f :: rest => do
    let p ← toPattern f
    let ps ← toPatterns rest
    return p :: ps

end

/-- Reads a query: a graph pattern inside any number of modifiers. -/
def toQuery : Form → Result Query
  | .list (.symbol head at' :: args) position =>
    match head with
    | "project" =>
      match args with
      | [names, inner] => do
        let q ← toQuery inner
        let names ← names.toProjection
        return { q with projection := some names }
      | _ => .error (arityFault position head 2 args.length)
    | "distinct" | "reduced" =>
      match args with
      | [inner] => do
        let q ← toQuery inner
        return { q with distinct := true }
      | _ => .error (arityFault position head 1 args.length)
    | "slice" =>
      match args with
      | [offset, limit, inner] => do
        let q ← toQuery inner
        let offset ← offset.toBound
        let limit ← limit.toBound
        return { q with offset, limit }
      | _ => .error (arityFault position head 3 args.length)
    | _ => (toPattern (.list (.symbol head at' :: args) position)).map .ofPattern
  | f => f.toPattern.map .ofPattern

end Form

namespace Query

/-- Reads a query. -/
def parse (input : String) : Result Query := do
  let form ← Form.read input
  form.toQuery

end Query

namespace GraphPattern

/-- Reads a graph pattern without modifiers. -/
def parse (input : String) : Result GraphPattern := do
  let form ← Form.read input
  form.toPattern

end GraphPattern

end VirtualGraph
