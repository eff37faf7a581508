import VirtualGraph.Block.Basic
import VirtualGraph.Bound.Tree
import VirtualGraph.Text.Quoted

/-!
# Explanations

Bound trees and blocks as indented text, one node a line.
-/

namespace VirtualGraph

namespace Explain

/-- A line of text, two blanks deeper with each level. -/
def line (depth : Nat) (text : String) : String :=
  String.ofList (List.replicate (2 * depth) ' ') ++ text ++ "\n"

def variableName (v : Variable) : String := s!"v{v}"

def variableList (vs : List Variable) : String := Text.join ", " (vs.map variableName)

end Explain

open Explain

namespace Candidate

/-- The pattern of a candidate with the triples maps and rows that answer it. -/
def explain (c : Candidate) : String :=
  let own := c.pattern.display ++ " <- " ++ c.map.name ++ "#" ++ toString c.row
  match c.object with
  | .term _ => own
  | .parent map row _ => own ++ " -> " ++ map.name ++ "#" ++ toString row

end Candidate

namespace BoundTree

mutual

/-- The text of a bound tree. -/
def explainAt (depth : Nat) : BoundTree → String
  | noMatch => line depth "no-match"
  | unit => line depth "unit"
  | triple c => line depth c.explain
  | join members => line depth "join" ++ explainEach (depth + 1) members
  | union branches => line depth "union" ++ explainEach (depth + 1) branches
  | leftJoin left right condition =>
    let text :=
      match condition with
      | some e => "leftjoin " ++ e.display
      | none => "leftjoin"
    line depth text ++ explainAt (depth + 1) left ++ explainAt (depth + 1) right
  | filter condition inner =>
    line depth ("filter " ++ condition.display) ++ explainAt (depth + 1) inner
  | extend inner name value =>
    line depth ("extend ?" ++ name ++ " := " ++ value.display) ++ explainAt (depth + 1) inner
termination_by structural x => x

def explainEach (depth : Nat) : List BoundTree → String
  | [] => ""
  | t :: rest => explainAt depth t ++ explainEach depth rest
termination_by structural x => x

end

def explain (t : BoundTree) : String := t.explainAt 0

end BoundTree

mutual

/-- The text of a scalar. -/
def Scalar.explain : Scalar → String
  | .column v => variableName v
  | .constant text _ => Text.quoted text
  | .null => "null"
  | .concat items => "concat(" ++ Text.join ", " (Scalar.explainEach items) ++ ")"
  | .coalesce items => "coalesce(" ++ Text.join ", " (Scalar.explainEach items) ++ ")"
  | .case branches otherwise =>
    "case" ++ Scalar.explainBranches branches ++ " else " ++ Scalar.explain otherwise ++ " end"
termination_by structural x => x

def Scalar.explainEach : List Scalar → List String
  | [] => []
  | x :: rest => Scalar.explain x :: Scalar.explainEach rest
termination_by structural x => x

def Scalar.explainBranches : List (Condition × Scalar) → String
  | [] => ""
  | (c, x) :: rest =>
    " when " ++ Condition.explain c ++ " then " ++ Scalar.explain x ++ Scalar.explainBranches rest
termination_by structural x => x

/-- The text of a condition. -/
def Condition.explain : Condition → String
  | .always => "true"
  | .never => "false"
  | .and items => "(" ++ Text.join " and " (Condition.explainEach items) ++ ")"
  | .or items => "(" ++ Text.join " or " (Condition.explainEach items) ++ ")"
  | .not inner => "not " ++ Condition.explain inner
  | .compare op l r => Scalar.explain l ++ " " ++ op.symbol ++ " " ++ Scalar.explain r
  | .sameVariable a b => variableName a ++ " = " ++ variableName b
  | .sameValue l r => Scalar.explain l ++ " = " ++ Scalar.explain r
  | .isNull v => variableName v ++ " is null"
  | .langMatches x range =>
    "langMatches(" ++ Scalar.explain x ++ ", " ++ Text.quoted range ++ ")"
  | .like x pattern => Scalar.explain x ++ " like " ++ Text.quoted pattern
termination_by structural x => x

def Condition.explainEach : List Condition → List String
  | [] => []
  | c :: rest => Condition.explain c :: Condition.explainEach rest
termination_by structural x => x

end

namespace VariableTable

/-- A variable of a table, with the column that it holds. -/
def explain (t : VariableTable) (v : Variable) : String :=
  match (t.info v).kind with
  | .column name => variableName v ++ "=" ++ name
  | _ => variableName v

end VariableTable

mutual

/-- The text of a block. -/
def Block.explainAt (t : VariableTable) (depth : Nat) : Block → String
  | ⟨exposed, sources, assignments, filters⟩ =>
    line depth ("block [" ++ variableList exposed ++ "]")
      ++ Source.explainEach t (depth + 1) sources
      ++ String.join (assignments.map fun a =>
        line (depth + 1) (variableName a.target ++ " := " ++ a.value.explain))
      ++ String.join (filters.map fun c => line (depth + 1) ("where " ++ c.explain))
termination_by structural x => x

def Block.explainEach (t : VariableTable) (depth : Nat) : List Block → String
  | [] => ""
  | b :: rest => Block.explainAt t depth b ++ Block.explainEach t depth rest
termination_by structural x => x

/-- The text of a source. -/
def Source.explainAt (t : VariableTable) (depth : Nat) : Source → String
  | .table table vs =>
    line depth ("from " ++ table.display ++ " [" ++ Text.join ", " (vs.map t.explain) ++ "]")
  | .nested block _ => line depth "from" ++ Block.explainAt t (depth + 1) block
  | .union index branches _ =>
    line depth ("union case " ++ variableName index) ++ Block.explainEach t (depth + 1) branches
  | .leftJoin block on _ =>
    line depth ("left join on " ++ Text.join " and " (Condition.explainEach on))
      ++ Block.explainAt t (depth + 1) block
termination_by structural x => x

def Source.explainEach (t : VariableTable) (depth : Nat) : List Source → String
  | [] => ""
  | s :: rest => Source.explainAt t depth s ++ Source.explainEach t depth rest
termination_by structural x => x

end

def Block.explain (t : VariableTable) (b : Block) : String := b.explainAt t 0

end VirtualGraph
