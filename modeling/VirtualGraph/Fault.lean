import VirtualGraph.Algebra.Expression
import VirtualGraph.Pattern.Template

/-!
# Faults

Every way in which reading, loading or compiling can fail, by its cause, and the one place where a
cause is put into words.
-/

namespace VirtualGraph

/-- What is wrong with the text of a query. -/
inductive FormProblem where
  | unreadable (excerpt : String)
  | trailing (rest : String)
  | noOperator
  | noForm
  | arity (head : String) (expected found : Nat)
  | notVariable
  | notVariableList
  | sliceBound (text : String)
  | notSliceBound
  | leftJoinArity
  | notBindingList
  | notBinding
  | table
  | operator (head : String)
  | blankNode
  | notTerm
  | notExpression
  | boundArity
  deriving DecidableEq

/-- The formats of a mapping document. -/
inductive DocumentFormat where
  | toml
  | json
  deriving DecidableEq

/-- The positions of a triple. -/
inductive Position where
  | subject
  | predicate
  | object
  deriving DecidableEq

/-- The kinds of term that a term map may produce. -/
inductive TermType where
  | iri
  | blankNode
  | literal
  deriving DecidableEq

/-- What is wrong with one triples map. -/
inductive TriplesMapProblem where
  | tableSource
  | termMapKind
  | datatypeAndLanguage
  | termType (position : Position) (type : TermType)
  | notLiteral
  | unknownColumn (column table : String)
  | unknownParent (parent : String)
  | otherTable (parent : String)
  | unknownChildColumn (column : String)
  | unknownParentColumn (column : String)
  | emptyPredicateObjectMap
  deriving DecidableEq

/-- What is wrong with a mapping. -/
inductive MappingProblem where
  | invalid (format : DocumentFormat)
  | duplicate (name : String)
  | triplesMap (name : String) (problem : TriplesMapProblem)
  deriving DecidableEq

/-- Why an expression has no counterpart in SQL. -/
inductive Obstacle where
  | nonBooleanConstant
  | effectiveBooleanValue
  | languageRange
  | stringArgument
  | stringCondition
  | unknownLanguage
  | conditionValue
  deriving DecidableEq

/-- A use of an expression that cannot be compiled. -/
inductive Unsupported where
  | function (name : String) (position : Nat)
  | expression (expression : Expression) (obstacle : Obstacle)
  | rebinding (name : String)

/-- A broken rule on the variables of blocks. -/
inductive ScopeProblem where
  | noTable (row : Nat)
  | column (column : String) (row : Nat)
  | caseIsOutput (v : Nat)
  | branchExposes (v : Nat)
  | notExposed (v : Nat)
  | assignment (target v : Nat)
  | producedTwice (v : Nat)
  | leftJoinCondition (v : Nat)
  | filter (v : Nat)
  | exposesUnproduced (v : Nat)
  | notColumn (v : Nat)
  | notInScope (v : Nat)
  deriving DecidableEq

/-- Why a file has no content. -/
inductive FileProblem where
  | missing
  | notDirectory
  | directory
  deriving DecidableEq

/-- Why a query has no answer. -/
inductive Fault where
  | form (position : Nat) (problem : FormProblem)
  | template (fault : TemplateFault)
  | mapping (problem : MappingProblem)
  | unsupported (use : Unsupported)
  | unknownVariable (name : String)
  | scope (problem : ScopeProblem)
  | settings
  | file (problem : FileProblem)

/-- A value, or why there is none. -/
abbrev Result (α : Type) : Type := Except Fault α

namespace FormProblem

def message : FormProblem → String
  | unreadable excerpt => s!"Malformed S-expression near '{excerpt}'"
  | trailing rest => s!"Unexpected trailing content: '{rest}'"
  | noOperator => "expected an operator after '('"
  | noForm => "expected a parenthesized form"
  | arity head expected found => s!"'{head}' takes {expected} argument(s), found {found}"
  | notVariable => "expected a variable"
  | notVariableList => "expected a variable list"
  | sliceBound text => s!"invalid slice bound '{text}'"
  | notSliceBound => "expected a number or '_'"
  | leftJoinArity => "'leftjoin' takes 2 or 3 arguments"
  | notBindingList => "expected a binding list"
  | notBinding => "expected (?var expr)"
  | table => "only '(table unit)' is supported"
  | operator head => s!"unsupported pattern operator '{head}'"
  | blankNode => "blank nodes are not supported, use a variable"
  | notTerm => "expected a variable, IRI or literal"
  | notExpression => "expected an expression"
  | boundArity => "'bound' takes one variable"

end FormProblem

namespace Position

def name : Position → String
  | subject => "Subject"
  | predicate => "Predicate"
  | object => "Object"

def all : List Position := [subject, predicate, object]

end Position

namespace TermType

def name : TermType → String
  | iri => "IRI"
  | blankNode => "BlankNode"
  | literal => "Literal"

end TermType

namespace TriplesMapProblem

def message : TriplesMapProblem → String
  | tableSource => "a logical table needs exactly one of table_name or sql_query"
  | termMapKind => "a term map needs exactly one of constant, column or template"
  | datatypeAndLanguage => "a literal cannot have both a datatype and a language"
  | termType position type =>
    "a " ++ position.name ++ " map cannot produce " ++ type.name ++ " terms"
  | notLiteral => "datatype and language only apply to literals"
  | unknownColumn column table => s!"unknown column '{column}' in {table}"
  | unknownParent parent => s!"unknown parent triples map '{parent}'"
  | otherTable parent =>
    s!"a reference to '{parent}' without join conditions needs the same logical table"
  | unknownChildColumn column => s!"unknown child column '{column}'"
  | unknownParentColumn column => s!"unknown parent column '{column}'"
  | emptyPredicateObjectMap =>
    "a predicate-object map needs at least one predicate and one object"

end TriplesMapProblem

namespace MappingProblem

def message : MappingProblem → String
  | invalid .toml => "invalid TOML mapping"
  | invalid .json => "invalid JSON mapping"
  | duplicate name => s!"duplicate triples map '{name}'"
  | triplesMap name problem => s!"triples map '{name}': " ++ problem.message

end MappingProblem

namespace Obstacle

def message : Obstacle → String
  | nonBooleanConstant => "non-boolean constant used as a condition"
  | effectiveBooleanValue => "effective boolean value of a non-boolean term"
  | languageRange => "langMatches range must be a constant"
  | stringArgument => "string function argument must be a constant"
  | stringCondition => "string value used as a condition"
  | unknownLanguage => "language of a term of unknown kind"
  | conditionValue => "condition used as a value"

end Obstacle

namespace Unsupported

def message : Unsupported → String
  | function name position => s!"function '{name}' at position {position}"
  | expression e obstacle => e.display ++ ": " ++ obstacle.message
  | rebinding name => s!"BIND to ?{name} which is already in scope"

end Unsupported

namespace ScopeProblem

def message : ScopeProblem → String
  | noTable row => s!"row instance {row} has no table"
  | column name row => s!"column {name} of row instance {row} is not in scope"
  | caseIsOutput v => s!"case variable v{v} is also a union output"
  | branchExposes v => s!"union branch exposes v{v} which the union does not produce"
  | notExposed v => s!"nested block does not expose v{v}"
  | assignment target v => s!"assignment to v{target} uses v{v} out of scope"
  | producedTwice v => s!"v{v} is produced twice"
  | leftJoinCondition v => s!"left join condition uses v{v} out of scope"
  | filter v => s!"filter uses v{v} out of scope"
  | exposesUnproduced v => s!"block exposes v{v} which it does not produce"
  | notColumn v => s!"v{v} of a table source is not a column"
  | notInScope v => s!"v{v} is not in scope of the block"

end ScopeProblem

namespace FileProblem

def message : FileProblem → String
  | missing => "No such file or directory (os error 2)"
  | notDirectory => "Not a directory (os error 20)"
  | directory => "Is a directory (os error 21)"

end FileProblem

namespace Fault

def message : Fault → String
  | form position problem => s!"Parse error at position {position}: " ++ problem.message
  | template f =>
    "Malformed template '" ++ f.template ++ "' at position " ++ toString f.position ++ ": "
      ++ f.problem.message
  | mapping problem => "Mapping error: " ++ problem.message
  | unsupported use => "Unsupported expression: " ++ use.message
  | unknownVariable name => s!"Unknown variable: ?{name}"
  | scope problem => "Internal invariant violated: " ++ problem.message
  | settings => "Configuration error"
  | file problem => "IO error: " ++ problem.message

end Fault

end VirtualGraph
