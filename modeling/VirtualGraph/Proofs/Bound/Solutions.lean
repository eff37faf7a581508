import VirtualGraph.Bound.Distribution
import VirtualGraph.Proofs.Block.Rows
import VirtualGraph.Proofs.Pattern.Comparison
import VirtualGraph.Text.Percent

/-!
# Solutions of bound trees

The bag of solutions that a bound tree has over a database. A candidate has one solution for each
choice of its rows in which no column that it reads is null, the columns of its join conditions are
equal, and the terms made from the rows agree with the constants of the pattern and with each other
where a variable is repeated. The other trees combine solutions as the algebra of SPARQL does.

How a value is written, which conditions a solution meets and what an expression is worth on it are
left open. Joining bags of solutions is associative and distributes over their sum, with the empty
solution as its unit.
-/

namespace VirtualGraph

variable {α : Type}

namespace Text

/-- The characters that stand for themselves in a percent-encoded text. -/
def isUnreserved (c : Char) : Bool :=
  let n := c.toNat
  (0x30 ≤ n && n ≤ 0x39) || (0x41 ≤ n && n ≤ 0x5A) || (0x61 ≤ n && n ≤ 0x7A)
    || c == '-' || c == '.' || c == '_' || c == '~' || 0x80 ≤ n

def hexDigit (n : Nat) : Char := Char.ofNat (if n < 10 then 0x30 + n else 0x37 + n)

/-- The bytes of a character, each as a percent sign and two digits. -/
def percentEscape (c : Char) : List Char :=
  (utf8Bytes c).flatMap fun b => ['%', hexDigit (b / 16), hexDigit (b % 16)]

/-- The text with all but the unreserved characters escaped. -/
def percentEncode (s : String) : String :=
  String.ofList (s.toList.flatMap fun c => if isUnreserved c then [c] else percentEscape c)

end Text

/-- A term of a solution, as far as equality of terms goes. -/
structure RdfTerm where
  shape : TermShape
  text : String
  deriving DecidableEq

namespace RdfTerm

/-- The term that a constant of a pattern stands for. -/
def ofConstant? : Term → Option RdfTerm
  | .var _ => none
  | .iri i => some ⟨.iri, i⟩
  | .literal l => some ⟨.ofLiteral l, l.value⟩

end RdfTerm

/-- The terms of the variables that a solution binds. -/
abbrev Solution := String → Option RdfTerm

namespace Solution

def empty : Solution := fun _ => none

/-- No variable is bound to two terms. -/
def Compatible (a b : Solution) : Prop := ∀ x, a x = none ∨ b x = none ∨ a x = b x

def merge (a b : Solution) : Solution := fun x => (a x).or (b x)

/-- The solution with one variable bound to a term, if there is one. -/
def bind (a : Solution) (name : String) (term : Option RdfTerm) : Solution :=
  fun x => if x = name then term.or (a x) else a x

open Classical in
/-- Two solutions as one, if they are compatible. -/
noncomputable def combine (a b : Solution) : Multiset Solution :=
  if Compatible a b then {a.merge b} else 0

/-- All combinations of two bags of solutions. -/
noncomputable def join (A B : Multiset Solution) : Multiset Solution :=
  A.bind fun a => B.bind a.combine

open Classical in
/-- The combinations that meet a condition, and the left solutions that are in none of them. -/
noncomputable def leftJoin (p : Solution → Prop) (A B : Multiset Solution) : Multiset Solution :=
  A.bind fun a =>
    if ((B.bind a.combine).filter p).card = 0 then {a} else (B.bind a.combine).filter p

variable {a b c : Solution} {x : String} {y : RdfTerm} {A B C : Multiset Solution}

theorem compatible_empty_left : Compatible empty b := fun _ => .inl rfl

theorem compatible_empty_right : Compatible a empty := fun _ => .inr (.inl rfl)

@[simp] theorem merge_empty_left : empty.merge b = b := rfl

@[simp] theorem merge_empty_right : a.merge empty = a := by
  funext x
  exact Option.or_none

@[simp] theorem combine_empty_left : empty.combine b = {b} := by
  rw [combine, if_pos compatible_empty_left, merge_empty_left]

@[simp] theorem combine_empty_right : a.combine empty = {a} := by
  rw [combine, if_pos compatible_empty_right, merge_empty_right]

theorem mem_combine : c ∈ a.combine b ↔ Compatible a b ∧ c = a.merge b := by
  rw [combine]
  split
  · rename_i h
    simp [h]
  · rename_i h
    simp [h]

theorem merge_of_left (h : a x = some y) : a.merge b x = some y := by
  rw [merge, h, Option.some_or]

theorem merge_of_right (hc : Compatible a b) (h : b x = some y) : a.merge b x = some y := by
  obtain hnone | hnone | heq := hc x
  · rw [merge, hnone, Option.none_or, h]
  · rw [hnone] at h
    cases h
  · exact merge_of_left (heq.trans h)

theorem compatible_assoc : (Compatible a b ∧ Compatible (a.merge b) c) ↔
    Compatible b c ∧ Compatible a (b.merge c) := by
  simp only [Compatible, merge, ← forall_and]
  refine forall_congr' fun x => ?_
  cases a x <;> cases b x <;> cases c x <;> simp
  grind

theorem merge_assoc : (a.merge b).merge c = a.merge (b.merge c) := by
  funext x
  exact Option.or_assoc

open Classical in
theorem combine_assoc : (a.combine b).bind (·.combine c) = (b.combine c).bind a.combine := by
  have hleft : (a.combine b).bind (·.combine c) =
      if Compatible a b ∧ Compatible (a.merge b) c then {(a.merge b).merge c} else 0 := by
    by_cases h : Compatible a b <;> simp [combine, h]
  have hright : (b.combine c).bind a.combine =
      if Compatible b c ∧ Compatible a (b.merge c) then {a.merge (b.merge c)} else 0 := by
    by_cases h : Compatible b c <;> simp [combine, h]
  rw [hleft, hright, merge_assoc]
  exact if_congr compatible_assoc rfl rfl

theorem mem_join : c ∈ join A B ↔ ∃ a ∈ A, ∃ b ∈ B, Compatible a b ∧ c = a.merge b := by
  simp only [join, Multiset.mem_bind, mem_combine]

@[simp] theorem join_zero_left : join 0 B = 0 := rfl

@[simp] theorem join_zero_right : join A 0 = 0 := by
  simp [join]

theorem bind_singleton_self : (A.bind fun a => {a}) = A :=
  (Multiset.bind_singleton A id).trans (Multiset.map_id A)

@[simp] theorem join_empty_left : join {empty} B = B := by
  simp [join, bind_singleton_self]

@[simp] theorem join_empty_right : join A {empty} = A := by
  simp [join, bind_singleton_self]

theorem join_add_left : join (A + B) C = join A C + join B C :=
  Multiset.add_bind A B _

theorem join_add_right : join A (B + C) = join A B + join A C := by
  simp only [join, Multiset.add_bind, Multiset.bind_add]

theorem join_assoc : join (join A B) C = join A (join B C) := by
  simp only [join, Multiset.bind_assoc]
  refine Multiset.bind_congr fun a _ => Multiset.bind_congr fun b _ => ?_
  rw [Multiset.bind_bind]
  exact Multiset.bind_congr fun c _ => combine_assoc

open Classical in
theorem mem_leftJoin {p : Solution → Prop} (h : c ∈ leftJoin p A B) :
    ∃ a ∈ A, c = a ∨ ∃ b ∈ B, Compatible a b ∧ c = a.merge b := by
  obtain ⟨a, ha, hc⟩ := Multiset.mem_bind.mp h
  refine ⟨a, ha, ?_⟩
  split at hc
  · exact .inl (Multiset.mem_singleton.mp hc)
  · obtain ⟨b, hb, hc⟩ := Multiset.mem_bind.mp (Multiset.mem_of_mem_filter hc)
    exact .inr ⟨b, hb, mem_combine.mp hc⟩

/-- If nothing on the right is compatible with a solution on the left, the left ones remain. -/
theorem leftJoin_of_join_eq_zero {p : Solution → Prop} (h : join A B = 0) :
    leftJoin p A B = A := by
  refine (Multiset.bind_congr fun a ha => ?_).trans bind_singleton_self
  have hnone : B.bind a.combine = 0 := by
    refine Multiset.le_zero.mp ?_
    rw [← h]
    exact Multiset.le_bind A ha
  rw [hnone, Multiset.filter_zero]
  exact if_pos rfl

end Solution

/-- What the solutions of a tree depend on besides the rows of the database: how a value of a type
is written, and what expressions come to on a solution. -/
structure Interpretation (α : Type) where
  text : SqlType → α → String
  holds : Expression → Solution → Prop
  value : Expression → Solution → Option RdfTerm

namespace TermMap

/-- The text of a column value. -/
def columnText (I : Interpretation α) (table : LogicalTable) (columns : String → Option α)
    (name : String) : String :=
  ((columns name).map (I.text (table.columnType name))).getD ""

/-- The text of the term that is made from a row. Values are percent-encoded in the template of an
IRI only. -/
def rowText (I : Interpretation α) (table : LogicalTable) (columns : String → Option α)
    (m : TermMap) : String :=
  match m.kind with
  | .constant value => value
  | .column name => columnText I table columns name
  | .template _ parts => String.ofList <| parts.flatMap fun
    | .text t => t.toList
    | .column name =>
      if m.termType == .iri then (Text.percentEncode (columnText I table columns name)).toList
      else (columnText I table columns name).toList

/-- The term that is made from a row. -/
def rowTerm (I : Interpretation α) (table : LogicalTable) (columns : String → Option α)
    (m : TermMap) : RdfTerm :=
  ⟨.ofTermMap m table, m.rowText I table columns⟩

end TermMap

/-- A row for each row number. -/
abbrev RowChoice (α : Type) := Nat → String → Option α

namespace RowChoice

/-- The choices of a row of the table for each row number. -/
def all (db : Database α) : List (Nat × LogicalTable) → Multiset (RowChoice α)
  | [] => {fun _ _ => none}
  | (n, table) :: rest =>
    (db table.source).bind fun columns =>
      (all db rest).map fun rows => Function.update rows n columns

end RowChoice

namespace Candidate

/-- The term made for a position. -/
def rowTerm (I : Interpretation α) (rows : RowChoice α) (c : Candidate) (p : Position) : RdfTerm :=
  (c.source p).1.rowTerm I (c.source p).2.2 (rows (c.source p).2.1)

/-- The rows make a triple that matches the pattern. -/
structure Admits (I : Interpretation α) (c : Candidate) (rows : RowChoice α) : Prop where
  columns : ∀ column ∈ c.columns, rows column.1 column.2 ≠ none
  joins : ∀ pair ∈ c.joins, rows pair.1.1 pair.1.2 = rows pair.2.1 pair.2.2
  constants : ∀ p x, RdfTerm.ofConstant? (c.queryTerm p) = some x → c.rowTerm I rows p = x
  repeated : ∀ p q name, c.queryTerm p = .var name → c.queryTerm q = .var name →
    c.rowTerm I rows p = c.rowTerm I rows q

/-- The terms of the variables of the pattern. -/
def solution (I : Interpretation α) (c : Candidate) (rows : RowChoice α) : Solution := fun name =>
  (Position.all.find? (c.queryTerm · = .var name)).map (c.rowTerm I rows)

open Classical in
noncomputable def solutions (I : Interpretation α) (db : Database α) (c : Candidate) :
    Multiset Solution :=
  ((RowChoice.all db c.rows).filter (c.Admits I)).map (c.solution I)

end Candidate

namespace BoundTree

/-- Whether a solution meets a condition, if there is one. -/
def meets (I : Interpretation α) (condition : Option Expression) (a : Solution) : Prop :=
  ∀ e ∈ condition, I.holds e a

open Classical in
mutual

/-- The solutions of a tree, each as often as it arises. -/
noncomputable def solutions (I : Interpretation α) (db : Database α) : BoundTree → Multiset Solution
  | noMatch => 0
  | unit => {Solution.empty}
  | triple c => c.solutions I db
  | join members => solutionsOfJoin I db members
  | union branches => solutionsOfUnion I db branches
  | leftJoin left right condition =>
    Solution.leftJoin (meets I condition) (solutions I db left) (solutions I db right)
  | filter condition inner => (solutions I db inner).filter (I.holds condition)
  | extend inner name value => (solutions I db inner).map fun a => a.bind name (I.value value a)
termination_by structural t => t

noncomputable def solutionsOfJoin (I : Interpretation α) (db : Database α) :
    List BoundTree → Multiset Solution
  | [] => {Solution.empty}
  | t :: rest => Solution.join (solutions I db t) (solutionsOfJoin I db rest)
termination_by structural ts => ts

noncomputable def solutionsOfUnion (I : Interpretation α) (db : Database α) :
    List BoundTree → Multiset Solution
  | [] => 0
  | t :: rest => solutions I db t + solutionsOfUnion I db rest
termination_by structural ts => ts

end

mutual

/-- No extension binds a variable that the tree inside it may bind. -/
def NoRebinding : BoundTree → Prop
  | noMatch => True
  | unit => True
  | triple _ => True
  | join members => NoRebindingAll members
  | union branches => NoRebindingAll branches
  | leftJoin left right _ => NoRebinding left ∧ NoRebinding right
  | filter _ inner => NoRebinding inner
  | extend inner name _ => NoRebinding inner ∧ name ∉ inner.names
termination_by structural t => t

def NoRebindingAll : List BoundTree → Prop
  | [] => True
  | t :: rest => NoRebinding t ∧ NoRebindingAll rest
termination_by structural ts => ts

end

end BoundTree

end VirtualGraph
