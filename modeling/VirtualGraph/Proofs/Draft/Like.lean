import VirtualGraph.Block.Select
import VirtualGraph.Proofs.Draft.Values

/-!
# Tests of texts against wildcard patterns

A test for the start, the end or a part of a text becomes a comparison with a wildcard pattern, in
which `%` stands for any text, `_` for any character and `!` makes the next character stand for
itself. The constant text of the test may hold all three. The pattern that is made from it is fitted
by exactly those texts that the test is true of.
-/

namespace VirtualGraph

variable {α : Type}

/-- A text fits a wildcard pattern. Nothing fits a pattern that ends in a lone `!`. -/
inductive Like : List Char → List Char → Prop where
  | nil : Like [] []
  | many {pattern text : List Char} (skipped : List Char) (h : Like pattern text) :
      Like ('%' :: pattern) (skipped ++ text)
  | one {pattern text : List Char} (c : Char) (h : Like pattern text) :
      Like ('_' :: pattern) (c :: text)
  | escaped {pattern text : List Char} (c : Char) (h : Like pattern text) :
      Like ('!' :: c :: pattern) (c :: text)
  | plain {pattern text : List Char} {c : Char} (hc : ¬(c = '!' ∨ c = '%' ∨ c = '_'))
      (h : Like pattern text) : Like (c :: pattern) (c :: text)

namespace Like

variable {pattern text : List Char} {c : Char}

theorem nil_iff : Like [] text ↔ text = [] := by
  constructor
  · intro h
    cases h
    rfl
  · rintro rfl
    exact nil

theorem many_iff : Like ('%' :: pattern) text ↔ ∃ rest, rest <:+ text ∧ Like pattern rest := by
  constructor
  · intro h
    cases h with
    | many skipped h => exact ⟨_, List.suffix_append skipped _, h⟩
    | plain hc => simp at hc
  · rintro ⟨rest, ⟨skipped, rfl⟩, h⟩
    exact many skipped h

theorem one_iff : Like ('_' :: pattern) text ↔ ∃ c rest, text = c :: rest ∧ Like pattern rest := by
  constructor
  · intro h
    cases h with
    | one c h => exact ⟨c, _, rfl, h⟩
    | plain hc => simp at hc
  · rintro ⟨c, rest, rfl, h⟩
    exact one c h

theorem escaped_iff :
    Like ('!' :: c :: pattern) text ↔ ∃ rest, text = c :: rest ∧ Like pattern rest := by
  constructor
  · intro h
    cases h with
    | escaped c h => exact ⟨_, rfl, h⟩
    | plain hc => simp at hc
  · rintro ⟨rest, rfl, h⟩
    exact escaped c h

theorem plain_iff (hc : ¬(c = '!' ∨ c = '%' ∨ c = '_')) :
    Like (c :: pattern) text ↔ ∃ rest, text = c :: rest ∧ Like pattern rest := by
  constructor
  · intro h
    cases h with
    | plain _ h => exact ⟨_, rfl, h⟩
    | many | one | escaped => simp at hc
  · rintro ⟨rest, rfl, h⟩
    exact plain hc h

theorem not_singleton_escape : ¬Like ['!'] text := by
  intro h
  cases h with
  | plain hc => simp at hc

/-- Every text fits a pattern for any text. -/
theorem any (text : List Char) : Like ['%'] text :=
  many_iff.mpr ⟨[], List.nil_suffix, nil⟩

/-- Whether a text goes on with a given character, and its rest has a property. -/
def decideHead {P : List Char → Prop} (hP : ∀ rest, Decidable (P rest)) (c : Char) :
    ∀ text : List Char, Decidable (∃ rest, text = c :: rest ∧ P rest)
  | [] => isFalse (by simp)
  | d :: text =>
    have := hP text
    decidable_of_iff (d = c ∧ P text) (by simp)

instance decidable : ∀ pattern text : List Char, Decidable (Like pattern text)
  | [], _ => decidable_of_iff _ nil_iff.symm
  | c :: pattern, text =>
    if hmany : c = '%' then
      have : DecidablePred (Like pattern) := decidable pattern
      decidable_of_iff (∃ rest ∈ text.tails, Like pattern rest) (by simp [hmany, many_iff])
    else if hone : c = '_' then
      match text with
      | [] => isFalse (by simp [hone, one_iff])
      | d :: text =>
        have := decidable pattern text
        decidable_of_iff (Like pattern text) (by simp [hone, one_iff])
    else if hescape : c = '!' then
      match pattern with
      | [] => isFalse (hescape ▸ not_singleton_escape)
      | d :: pattern =>
        have := decideHead (decidable pattern) d text
        decidable_of_iff _ (hescape ▸ escaped_iff.symm)
    else
      have := decideHead (decidable pattern) c text
      decidable_of_iff _ (plain_iff (by simp [hmany, hone, hescape])).symm

end Like

namespace Expression

/-- In front of any pattern, an escaped text is fitted by itself. -/
theorem like_likeText_append {t : String} {pattern text : List Char} :
    Like ((likeText t).toList ++ pattern) text ↔
      ∃ rest, text = t.toList ++ rest ∧ Like pattern rest := by
  rw [likeText, String.toList_ofList]
  induction t.toList generalizing text with
  | nil => simp
  | cons c t ih =>
    have hrest : (∃ rest, text = c :: rest ∧ ∃ rest', rest = t ++ rest' ∧ Like pattern rest') ↔
        ∃ rest, text = c :: t ++ rest ∧ Like pattern rest := by
      simp
    rw [List.flatMap_cons, List.append_assoc]
    split
    · rw [List.cons_append, List.singleton_append, Like.escaped_iff]
      simpa only [ih] using hrest
    · rename_i hc
      rw [List.singleton_append, Like.plain_iff hc]
      simpa only [ih] using hrest

theorem like_likeText {t : String} {text : List Char} :
    Like (likeText t).toList text ↔ text = t.toList := by
  rw [← List.append_nil (likeText t).toList, like_likeText_append]
  simp [Like.nil_iff]

end Expression

/-- Where a test looks for a constant text. -/
inductive TextTest where
  | start | finish | anywhere

namespace TextTest

def expression : TextTest → Expression → Expression → Expression
  | start => .strStarts
  | finish => .strEnds
  | anywhere => .contains

/-- A text has a part where the test looks for it. -/
def Holds : TextTest → String → String → Prop
  | start, part, text => part.toList <+: text.toList
  | finish, part, text => part.toList <:+ text.toList
  | anywhere, part, text => part.toList <:+: text.toList

/-- The pattern that a test becomes. -/
def pattern : TextTest → String → String
  | start, part => Expression.likeText part ++ "%"
  | finish, part => "%" ++ Expression.likeText part
  | anywhere, part => "%" ++ Expression.likeText part ++ "%"

private theorem toList_any : "%".toList = ['%'] := rfl

/-- The pattern of a test is fitted by exactly the texts that the test is true of. -/
theorem like_pattern (k : TextTest) (part text : String) :
    Like (k.pattern part).toList text.toList ↔ k.Holds part text := by
  cases k with
  | start =>
    rw [pattern, String.toList_append, toList_any, Expression.like_likeText_append, Holds]
    constructor
    · rintro ⟨rest, htext, -⟩
      exact ⟨rest, htext.symm⟩
    · rintro ⟨rest, htext⟩
      exact ⟨rest, htext.symm, .any rest⟩
  | finish =>
    rw [pattern, String.toList_append, toList_any, List.singleton_append, Like.many_iff, Holds]
    simp only [Expression.like_likeText, exists_eq_right]
  | anywhere =>
    rw [pattern, String.append_assoc, String.toList_append, String.toList_append, toList_any,
      List.singleton_append, Like.many_iff, Holds]
    simp only [Expression.like_likeText_append]
    constructor
    · rintro ⟨_, ⟨skipped, htext⟩, rest, rfl, -⟩
      exact ⟨skipped, rest, by rw [List.append_assoc, htext]⟩
    · rintro ⟨skipped, rest, htext⟩
      exact ⟨_, ⟨skipped, by rw [← htext, List.append_assoc]⟩, rest, rfl, .any rest⟩

theorem likeCondition_literal (s : ExpressionScope) (whole v : Expression) (l : Literal)
    (pattern : String → String) :
    Expression.likeCondition s whole v (.constant (.literal l)) pattern =
      (v.value s).map fun x => .like x.scalar (pattern (Expression.likeText l.value)) := by
  show (v.value s >>= fun x => _) = _
  cases v.value s <;> rfl

theorem condition_expression (k : TextTest) (s : ExpressionScope) (v : Expression) (l : Literal) :
    (k.expression v (.constant (.literal l))).condition s =
      (v.value s).map fun x => .like x.scalar (k.pattern l.value) := by
  cases k <;> exact likeCondition_literal ..

end TextTest

/-- Values are compared with a wildcard pattern by their texts. -/
def ValueDomain.MatchesTexts (D : ValueDomain α) (text : α → String) : Prop :=
  ∀ a pattern, D.like a pattern = true ↔ Like pattern.toList (text a).toList

/-- The condition of a test exists wherever its value does. It compares the value with a pattern
that exactly the right texts fit, as the statement spells it, so it is true on exactly the rows
whose value has the constant text in the right place. -/
theorem TextTest.condition_selects (k : TextTest) (s : ExpressionScope) (v : Expression)
    (l : Literal) {x : Computed} (hx : v.value s = .ok x) :
    ∃ pattern,
      (k.expression v (.constant (.literal l))).condition s = .ok (.like x.scalar pattern) ∧
      (∀ text : String, Like pattern.toList text.toList ↔ k.Holds l.value text) ∧
      (∀ (d : Dialect) (t : VariableTable) (resolve : Variable → Result SqlValue) (y : SqlValue),
        x.scalar.toSql t resolve = .ok y →
        ∃ c, (Condition.like x.scalar pattern).toSql t resolve = .ok c ∧
          d.condition c = d.value (y.castFrom (x.scalar.type? t) .string) ++ " LIKE " ++
            d.stringLiteral pattern ++ " ESCAPE '!'") ∧
      ∀ (D : ValueDomain α) (text : α → String), D.MatchesTexts text →
        ∀ (row : Row α) (a : α), x.scalar.eval D row = some a →
          ((Condition.like x.scalar pattern).eval D row = .yes ↔ k.Holds l.value (text a)) := by
  refine ⟨k.pattern l.value, ?_, k.like_pattern l.value, ?_, ?_⟩
  · rw [k.condition_expression, hx]
    rfl
  · intro d t resolve y hy
    refine ⟨.like (y.castFrom (x.scalar.type? t) .string) (k.pattern l.value), ?_, rfl⟩
    rw [Condition.toSql, hy]
    rfl
  · intro D text hD row a ha
    rw [← k.like_pattern, ← hD, Condition.eval, ha]
    exact Truth.ofBool_eq_yes

/-- A constant text of wildcards is found where it stands, and not in a text that it would fit if
its characters had their meaning. -/
theorem TextTest.condition_selects_discount :
    let s : ExpressionScope :=
      ⟨[⟨.column "offer", .string, true⟩], [], [("x", .value 0 .unknown true false)]⟩
    let D : ValueDomain String :=
      { ValueDomain.texts with like := fun a pattern => decide (Like pattern.toList a.toList) }
    let l : Literal := ⟨"50%_off!", none, none⟩
    let x : Computed := ⟨.column 0, .string, .unknown, true, false⟩
    (Expression.var "x").value s = .ok x ∧ D.MatchesTexts id ∧
      ∃ pattern,
        (Expression.strEnds (.var "x") (.constant (.literal l))).condition s =
          .ok (.like x.scalar pattern) ∧
        (Condition.like x.scalar pattern).eval D (fun _ => some "now 50%_off!") = .yes ∧
        (Condition.like x.scalar pattern).eval D (fun _ => some "now 50 % off!") ≠ .yes := by
  intro s D l x
  have hx : (Expression.var "x").value s = .ok x := rfl
  have hD : D.MatchesTexts id := fun _ _ => decide_eq_true_iff
  obtain ⟨pattern, hcondition, -, -, heval⟩ := finish.condition_selects s (.var "x") l hx
  refine ⟨hx, hD, pattern, hcondition, ?_, ?_⟩
  · rw [heval D id hD _ _ rfl]
    show "50%_off!".toList <:+ "now 50%_off!".toList
    decide
  · rw [Ne, heval D id hD _ _ rfl]
    show ¬"50%_off!".toList <:+ "now 50 % off!".toList
    decide

end VirtualGraph
