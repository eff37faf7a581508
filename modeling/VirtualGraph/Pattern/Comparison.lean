import VirtualGraph.Pattern.Basic

/-!
# Comparison of patterns

Whether two patterns can produce the same text. The answer is either that they are disjoint, or a
list of pairs of smaller patterns that have to be equal instead. Three steps take the pair apart:
equal characters at the two beginnings cancel, equal characters at the two ends cancel, and when
both patterns are escaped the leading runs up to the first reserved character have to agree, since
no slot value holds a reserved character.
-/

namespace VirtualGraph

/-- The outcome of a comparison. -/
inductive Comparison where
  /-- The patterns have no text in common. -/
  | disjoint
  /-- The patterns agree exactly when both members of every pair do. -/
  | residual (pairs : List (Pattern × Pattern))
  deriving DecidableEq

namespace Comparison

def neverMatch : Comparison → Bool
  | disjoint => true
  | residual _ => false

def alwaysMatch : Comparison → Bool
  | disjoint => false
  | residual pairs => pairs.isEmpty

/-- The pairs that have to be equal. -/
def residuals : Comparison → List (Pattern × Pattern)
  | disjoint => []
  | residual pairs => pairs

end Comparison

namespace Pattern

/-- Cancels equal characters at the beginnings, as long as both sides begin with a character;
`none` when two of them differ. -/
def cancel : List Symbol → List Symbol → Option (List Symbol × List Symbol)
  | .char a :: l, .char b :: r => if a = b then cancel l r else none
  | l, r => some (l, r)

/-- Cancels equal characters at the ends. -/
def cancelEnd (l r : List Symbol) : Option (List Symbol × List Symbol) :=
  (cancel l.reverse r.reverse).map fun (l', r') => (l'.reverse, r'.reverse)

/-- The characters that a percent-encoded value may hold. -/
def isRunChar (c : Char) : Bool :=
  let n := c.toNat
  (0x30 ≤ n && n ≤ 0x39) || (0x41 ≤ n && n ≤ 0x5A) || (0x61 ≤ n && n ≤ 0x7A)
    || c == '-' || c == '.' || c == '_' || c == '~' || c == '%' || 0x80 ≤ n

/-- A slot, or a character that a slot value may hold. -/
def isRunSymbol : Symbol → Bool
  | .char c => isRunChar c
  | .slot _ => true

/-- What remains of an equality between two patterns that share no further step: nothing when they
are the same, the pair itself when it is open, and `none` when it cannot hold. -/
def settle (l r : Pattern) : Option (List (Pattern × Pattern)) :=
  if l.isConstant && r.isConstant then
    if l.chars = r.chars then some [] else none
  else if (l.isEmpty && r.hasText) || (r.isEmpty && l.hasText) then none
  else if l = r then some []
  else some [(l, r)]

theorem length_of_cancel {l r l' r' : List Symbol} (h : cancel l r = some (l', r')) :
    l'.length + r'.length ≤ l.length + r.length := by
  fun_induction cancel l r with
  | case1 => rename_i ih; have := ih h; simp; omega
  | case2 => cases h
  | case3 l r _ => cases h; omega

theorem length_of_cancelEnd {l r l' r' : List Symbol} (h : cancelEnd l r = some (l', r')) :
    l'.length + r'.length ≤ l.length + r.length := by
  simp only [cancelEnd, Option.map_eq_some_iff, Prod.exists, Prod.mk.injEq] at h
  obtain ⟨a, b, hc, rfl, rfl⟩ := h
  simpa using length_of_cancel hc

/-- Cancels equal characters at both ends. -/
def cancelBoth (l r : List Symbol) : Option (List Symbol × List Symbol) :=
  (cancel l r).bind fun (l', r') => cancelEnd l' r'

theorem length_of_cancelBoth {l r l' r' : List Symbol} (h : cancelBoth l r = some (l', r')) :
    l'.length + r'.length ≤ l.length + r.length := by
  obtain ⟨⟨a, b⟩, h₁, h₂⟩ := Option.bind_eq_some_iff.1 h
  exact Nat.le_trans (length_of_cancelEnd h₂) (length_of_cancel h₁)

/-- The leading symbols up to the first reserved character. -/
def run (symbols : List Symbol) : List Symbol := symbols.takeWhile isRunSymbol

/-- The symbols from the first reserved character on. -/
def afterRun (symbols : List Symbol) : List Symbol := symbols.dropWhile isRunSymbol

theorem run_append_afterRun (symbols : List Symbol) : run symbols ++ afterRun symbols = symbols :=
  List.takeWhile_append_dropWhile

theorem length_afterRun (symbols : List Symbol) :
    (run symbols).length + (afterRun symbols).length = symbols.length := by
  rw [← List.length_append, run_append_afterRun]

/-- Takes the two remaining symbol sequences apart, step by step. -/
def reduce (escapedL escapedR : Bool) (l r : List Symbol) : Option (List (Pattern × Pattern)) :=
  match _hs : cancelBoth l r with
  | none => none
  | some (l', r') =>
    if l' = [] ∧ r' = [] then some []
    else if (l' = [] ∧ r'.any Symbol.isChar) ∨ (r' = [] ∧ l'.any Symbol.isChar) then none
    else if l'.length + r'.length < l.length + r.length then reduce escapedL escapedR l' r'
    else if ¬(escapedL ∧ escapedR) then settle ⟨escapedL, l'⟩ ⟨escapedR, r'⟩
    else if (afterRun l').head? ≠ (afterRun r').head? then none
    else if run l' = [] ∧ run r' = [] then settle ⟨escapedL, l'⟩ ⟨escapedR, r'⟩
    else
      (settle ⟨true, run l'⟩ ⟨true, run r'⟩).bind fun first =>
        (reduce escapedL escapedR (afterRun l') (afterRun r')).map (first ++ ·)
termination_by l.length + r.length
decreasing_by
  · assumption
  · rename_i hrun
    have hle := length_of_cancelBoth _hs
    have hl := length_afterRun l'
    have hr := length_afterRun r'
    simp only [← List.length_eq_zero_iff] at hrun
    omega

/-- Compares two patterns. -/
def compare (l r : Pattern) : Comparison :=
  match reduce l.escaped r.escaped l.symbols r.symbols with
  | none => .disjoint
  | some pairs => .residual pairs

end Pattern

end VirtualGraph
