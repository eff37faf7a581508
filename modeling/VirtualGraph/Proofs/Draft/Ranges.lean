import VirtualGraph.Proofs.Draft.Like
import VirtualGraph.Proofs.Sql.Quoting

/-!
# Tests of language tags against ranges

A test whether a language tag is in a range compares the tag, in lower case, with the range, and
with a wildcard pattern that is made from the range. Unlike the tests of other texts, it does not
escape the wildcards that the range may hold, and the comparison names no escape character. So every
tag in the range passes the test, but where the range holds a wildcard, tags outside of it pass too.

What a test is true of is read from its text: string literals stand for what a database reads there.
-/

namespace VirtualGraph

/-! ### Patterns without an escape character -/

/-- The characters that a pattern gives a meaning. -/
def IsWildcard (c : Char) : Prop := c = '%' ∨ c = '_'

instance (c : Char) : Decidable (IsWildcard c) := inferInstanceAs (Decidable (_ ∨ _))

/-- A text fits a wildcard pattern of a comparison that names no escape character: there `!` stands
for itself. -/
def Fits (pattern text : List Char) : Prop := Like (Text.replaceChar '!' ['!', '!'] pattern) text

instance (pattern text : List Char) : Decidable (Fits pattern text) :=
  inferInstanceAs (Decidable (Like _ _))

namespace Fits

variable {pattern rest text : List Char} {c : Char}

theorem nil_iff : Fits [] text ↔ text = [] := Like.nil_iff

theorem many_iff : Fits ('%' :: pattern) text ↔ ∃ tail, tail <:+ text ∧ Fits pattern tail :=
  Like.many_iff

theorem one_iff : Fits ('_' :: pattern) text ↔ ∃ c tail, text = c :: tail ∧ Fits pattern tail :=
  Like.one_iff

theorem plain_iff (hc : ¬IsWildcard c) :
    Fits (c :: pattern) text ↔ ∃ tail, text = c :: tail ∧ Fits pattern tail := by
  unfold Fits
  rw [Text.replaceChar, List.flatMap_cons]
  split
  · rename_i hescape
    rw [hescape]
    exact Like.escaped_iff
  · rename_i hescape
    exact Like.plain_iff fun h => h.elim hescape hc

/-- A text fits two patterns in a row if a first part of it fits the first. -/
theorem append_iff : Fits (pattern ++ rest) text ↔
    ∃ front back, text = front ++ back ∧ Fits pattern front ∧ Fits rest back := by
  induction pattern generalizing text with
  | nil => simp [nil_iff]
  | cons c pattern ih =>
    rw [List.cons_append]
    by_cases hmany : c = '%'
    · subst hmany
      simp only [many_iff, ih]
      constructor
      · rintro ⟨_, ⟨skipped, rfl⟩, front, back, rfl, hfront, hback⟩
        refine ⟨skipped ++ front, back, (List.append_assoc ..).symm, ⟨front, ?_, hfront⟩, hback⟩
        exact List.suffix_append skipped front
      · rintro ⟨_, back, rfl, ⟨front, ⟨skipped, rfl⟩, hfront⟩, hback⟩
        refine ⟨front ++ back, ⟨skipped, ?_⟩, front, back, rfl, hfront, hback⟩
        exact (List.append_assoc ..).symm
    · by_cases hone : c = '_'
      · subst hone
        simp only [one_iff, ih]
        constructor
        · rintro ⟨d, _, rfl, front, back, rfl, hfront, hback⟩
          exact ⟨d :: front, back, rfl, ⟨d, front, rfl, hfront⟩, hback⟩
        · rintro ⟨_, back, rfl, ⟨d, front, rfl, hfront⟩, hback⟩
          exact ⟨d, front ++ back, rfl, front, back, rfl, hfront, hback⟩
      · have hc : ¬IsWildcard c := fun h => h.elim hmany hone
        simp only [plain_iff hc, ih]
        constructor
        · rintro ⟨_, rfl, front, back, rfl, hfront, hback⟩
          exact ⟨c :: front, back, rfl, ⟨front, rfl, hfront⟩, hback⟩
        · rintro ⟨_, back, rfl, ⟨front, rfl, hfront⟩, hback⟩
          exact ⟨front ++ back, rfl, front, back, rfl, hfront, hback⟩

/-- A pattern is fitted by every text that keeps all but its wildcards. -/
theorem map {f : Char → Char} (hf : ∀ c, ¬IsWildcard c → f c = c) (pattern : List Char) :
    Fits pattern (pattern.map f) := by
  induction pattern with
  | nil => exact nil_iff.mpr rfl
  | cons c pattern ih =>
    by_cases hc : IsWildcard c
    · rcases hc with rfl | rfl
      · exact many_iff.mpr ⟨_, List.suffix_cons _ _, ih⟩
      · exact one_iff.mpr ⟨_, _, rfl, ih⟩
    · rw [List.map_cons, hf c hc]
      exact (plain_iff hc).mpr ⟨_, rfl, ih⟩

theorem self (pattern : List Char) : Fits pattern pattern := by
  have h := map (f := id) (fun _ _ => rfl) pattern
  rwa [List.map_id] at h

/-- Without wildcards a pattern is fitted by itself only. -/
theorem eq_iff (h : ∀ c ∈ pattern, ¬IsWildcard c) : Fits pattern text ↔ text = pattern := by
  induction pattern generalizing text with
  | nil => exact nil_iff
  | cons c pattern ih =>
    rw [List.forall_mem_cons] at h
    rw [plain_iff h.1]
    simp only [ih h.2, exists_eq_right]

end Fits

theorem isWildcard_toLower {c : Char} : IsWildcard c.toLower ↔ IsWildcard c :=
  or_congr (Text.toLower_eq_iff (by decide) (by decide))
    (Text.toLower_eq_iff (by decide) (by decide))

theorem Text.lower_eq_star {r : String} : Text.lower r = "*" ↔ r = "*" := by
  rw [← String.toList_inj, Text.toList_lower, ← String.toList_inj]
  show r.toList.map Char.toLower = ['*'] ↔ r.toList = ['*']
  have hstar (c : Char) : c.toLower = '*' ↔ c = '*' :=
    Text.toLower_eq_iff (by decide) (by decide)
  rw [List.map_eq_singleton_iff]
  simp only [hstar, exists_eq_right]

/-! ### Tests of tags -/

/-- A test of a language tag in a statement. -/
inductive TagTest where
  | differs (text : String)
  | lowerIs (text : String)
  | lowerLike (pattern : String)
  | either (first second : TagTest)

namespace TagTest

/-- The test is true of a tag. -/
def Holds : TagTest → String → Prop
  | differs text, tag => tag ≠ text
  | lowerIs text, tag => Text.lower tag = text
  | lowerLike pattern, tag => Fits pattern.toList (Text.lower tag).toList
  | either first second, tag => first.Holds tag ∨ second.Holds tag

/-- The text of a test of the tag that an expression gives. Literals are as the database reads
them. -/
inductive Written (d : Dialect) (tag : String) : TagTest → String → Prop
  | differs {text literal : String} (h : d.readString literal.toList = some (text.toList, [])) :
      Written d tag (differs text) (tag ++ " <> " ++ literal)
  | lowerIs {text literal : String} (h : d.readString literal.toList = some (text.toList, [])) :
      Written d tag (lowerIs text) ("LOWER(" ++ tag ++ ") = " ++ literal)
  | lowerLike {text literal : String} (h : d.readString literal.toList = some (text.toList, [])) :
      Written d tag (lowerLike text) ("LOWER(" ++ tag ++ ") LIKE " ++ literal)
  | either {first second : TagTest} {a b : String} (ha : Written d tag first a)
      (hb : Written d tag second b) :
      Written d tag (either first second) ("(" ++ a ++ " OR " ++ b ++ ")")

/-- The test that a range becomes. -/
def ofRange (range : String) : TagTest :=
  if range = "*" then differs "" else either (lowerIs range) (lowerLike (range ++ "-%"))

/-- The condition of a range is the text of its test. -/
theorem written_ofRange (d : Dialect) (x : SqlValue) (range : String) :
    (ofRange range).Written d (d.value x) (d.condition (.langMatches x range)) := by
  have hread (t : String) : d.readString (d.stringLiteral t).toList = some (t.toList, []) := by
    have h := d.readString_stringLiteral t (by decide : ([] : List Char).head? ≠ some '\'')
    rwa [List.append_nil] at h
  rw [ofRange, Dialect.condition]
  split
  · have hempty : d.stringLiteral "" = "''" := by cases d <;> rfl
    have h : Written d (d.value x) (differs "") _ := .differs (hread "")
    rwa [hempty, String.append_assoc] at h
  · have h : Written d (d.value x) (either (lowerIs range) (lowerLike (range ++ "-%"))) _ :=
      .either (.lowerIs (hread range)) (.lowerLike (hread (range ++ "-%")))
    have hopen (rest : String) : "(" ++ ("LOWER(" ++ rest) = "(LOWER(" ++ rest := by
      rw [← String.append_assoc]
      rfl
    have hor (rest : String) : " OR " ++ ("LOWER(" ++ rest) = " OR LOWER(" ++ rest := by
      rw [← String.append_assoc]
      rfl
    simpa only [String.append_assoc, hopen, hor] using h

/-- A tag passes the test of a range in lower case if it is the range, or goes on after a part that
fits the range as a pattern. -/
theorem holds_ofRange {range : String} (hrange : range ≠ "*") {tag : String} :
    (ofRange range).Holds tag ↔ Text.lower tag = range ∨
      ∃ front back, (Text.lower tag).toList = front ++ '-' :: back ∧ Fits range.toList front := by
  rw [ofRange, if_neg hrange]
  refine or_congr Iff.rfl ?_
  have hdash : (range ++ "-%").toList = range.toList ++ ['-', '%'] := String.toList_append
  have hback (back : List Char) : Fits ['-', '%'] back ↔ ∃ rest, back = '-' :: rest := by
    rw [Fits.plain_iff (by decide)]
    constructor
    · rintro ⟨rest, hback, -⟩
      exact ⟨rest, hback⟩
    · rintro ⟨rest, hback⟩
      exact ⟨rest, hback, Like.any rest⟩
  show Fits _ _ ↔ _
  rw [hdash, Fits.append_iff]
  constructor
  · rintro ⟨front, back, htag, hfront, hdashed⟩
    obtain ⟨rest, rfl⟩ := (hback back).mp hdashed
    exact ⟨front, rest, htag, hfront⟩
  · rintro ⟨front, back, htag, hfront⟩
    exact ⟨front, _, htag, hfront, (hback _).mpr ⟨back, rfl⟩⟩

end TagTest

/-! ### Ranges -/

/-- A language tag is in a range. The range `*` has every tag but the empty one; any other has the
tag of its own name and those that go on after it with a further part, in upper or lower case. -/
def InRange (range tag : String) : Prop :=
  range = "*" ∧ tag ≠ "" ∨ range ≠ "*" ∧ (Text.lower tag = Text.lower range ∨
    (Text.lower range).toList ++ ['-'] <+: (Text.lower tag).toList)

instance (range tag : String) : Decidable (InRange range tag) :=
  inferInstanceAs (Decidable (_ ∨ _))

/-- The tags that pass the test of a range. -/
def PassesRange (range tag : String) : Prop :=
  range = "*" ∧ tag ≠ "" ∨ range ≠ "*" ∧ (Text.lower tag = Text.lower range ∨
    ∃ front back, (Text.lower tag).toList = front ++ '-' :: back ∧
      Fits (Text.lower range).toList front)

section

variable {range tag : String}

theorem TagTest.holds_ofRange_lower :
    (TagTest.ofRange (Text.lower range)).Holds tag ↔ PassesRange range tag := by
  by_cases hrange : range = "*"
  · subst hrange
    show tag ≠ "" ↔ _
    simp [PassesRange]
  · rw [TagTest.holds_ofRange (mt Text.lower_eq_star.mp hrange), PassesRange]
    simp [hrange]

theorem PassesRange.of_inRange (h : InRange range tag) : PassesRange range tag := by
  refine Or.imp_right (And.imp_right (Or.imp_right ?_)) h
  rintro ⟨back, htag⟩
  refine ⟨_, back, ?_, Fits.self _⟩
  rw [← htag, List.append_assoc, List.singleton_append]

/-- Without wildcards only the tags in a range pass its test. -/
theorem PassesRange.inRange (hrange : ∀ c ∈ range.toList, ¬IsWildcard c)
    (h : PassesRange range tag) : InRange range tag := by
  have hlower : ∀ c ∈ (Text.lower range).toList, ¬IsWildcard c := by
    intro c hc
    rw [Text.toList_lower] at hc
    obtain ⟨e, he, rfl⟩ := List.mem_map.mp hc
    exact mt isWildcard_toLower.mp (hrange e he)
  refine Or.imp_right (And.imp_right (Or.imp_right ?_)) h
  rintro ⟨front, back, htag, hfront⟩
  rw [Fits.eq_iff hlower] at hfront
  refine ⟨back, ?_⟩
  rw [htag, hfront, List.append_assoc, List.singleton_append]

theorem ne_star_of_isWildcard {c : Char} (hc : c ∈ range.toList) (hwild : IsWildcard c) :
    range ≠ "*" := by
  rintro rfl
  cases List.mem_singleton.mp hc
  exact absurd hwild (by decide)

/-- A character in the place of a wildcard. -/
def fillWildcard (c : Char) : Char := if IsWildcard c then 'x' else c

/-- A tag that passes the test of a range: its wildcards are filled in, and a further part
follows. -/
def stray (range : String) : String :=
  String.ofList ((Text.lower range).toList.map fillWildcard ++ ['-'])

theorem toList_stray (range : String) :
    (stray range).toList = (Text.lower range).toList.map fillWildcard ++ ['-'] :=
  String.toList_ofList

theorem lower_stray (range : String) : Text.lower (stray range) = stray range := by
  have hfill (c : Char) : (fillWildcard c.toLower).toLower = fillWildcard c.toLower := by
    unfold fillWildcard
    split
    · rfl
    · exact Text.toLower_toLower c
  rw [← String.toList_inj, Text.toList_lower, toList_stray, Text.toList_lower]
  simp [hfill]

theorem PassesRange.stray (hrange : range ≠ "*") : PassesRange range (stray range) := by
  refine .inr ⟨hrange, .inr ⟨_, [], ?_, Fits.map (f := fillWildcard) ?_ _⟩⟩
  · rw [lower_stray, toList_stray]
  · exact fun c hc => if_neg hc

/-- The stray tag of a range with a wildcard is outside of it. -/
theorem not_inRange_stray {c : Char} (hc : c ∈ range.toList) (hwild : IsWildcard c) :
    ¬InRange range (stray range) := by
  have hlength : (stray range).toList.length = (Text.lower range).toList.length + 1 := by
    rw [toList_stray, List.length_append, List.length_map, List.length_singleton]
  rintro (⟨hstar, -⟩ | ⟨-, hlower | hstart⟩)
  · exact ne_star_of_isWildcard hc hwild hstar
  · rw [lower_stray] at hlower
    rw [hlower] at hlength
    omega
  · -- Both texts have the same length, so the wildcards of the range would be their own fillings.
    rw [lower_stray] at hstart
    have hwhole := hstart.eq_of_length (by rw [hlength, List.length_append, List.length_singleton])
    rw [toList_stray, Text.toList_lower, List.map_map] at hwhole
    have hfilled := List.map_inj_left.mp (List.append_cancel_right hwhole) c hc
    have hx : fillWildcard c.toLower = 'x' := if_pos (isWildcard_toLower.mpr hwild)
    have hlowered := isWildcard_toLower.mpr hwild
    rw [hfilled, Function.comp_apply, hx] at hlowered
    exact absurd hlowered (by decide)

end

namespace Expression

/-- The test of a language tag against a constant range exists wherever the value of the tag does.
It passes every tag in the range. What else it passes is what fits the range as a wildcard
pattern, in front of a further part; so it is exact for the ranges that hold no wildcard, and for
no others. -/
theorem langMatches_selects (s : ExpressionScope) (language : Expression) (l : Literal)
    {x : Computed} (hx : language.value s = .ok x) :
    ∃ c, (langMatches language (.constant (.literal l))).condition s = .ok c ∧
      ∀ (d : Dialect) (t : VariableTable) (resolve : Variable → Result SqlValue) (y : SqlValue),
        x.scalar.toSql t resolve = .ok y →
        ∃ c' test, c.toSql t resolve = .ok c' ∧
          TagTest.Written d (d.value (y.castFrom (x.scalar.type? t) .string)) test
            (d.condition c') ∧
          (∀ tag, test.Holds tag ↔ PassesRange l.value tag) ∧
          (∀ tag, InRange l.value tag → test.Holds tag) ∧
          ((∀ tag, test.Holds tag ↔ InRange l.value tag) ↔
            ∀ c ∈ l.value.toList, ¬IsWildcard c) := by
  refine ⟨.langMatches x.scalar (Text.lower l.value), ?_, fun d t resolve y hy => ?_⟩
  · show (language.value s >>= fun v => _) = _
    rw [hx]
    rfl
  · refine ⟨.langMatches (y.castFrom (x.scalar.type? t) .string) (Text.lower l.value),
      .ofRange (Text.lower l.value), ?_, TagTest.written_ofRange d _ _,
      fun _ => TagTest.holds_ofRange_lower,
      fun _ h => TagTest.holds_ofRange_lower.mpr (.of_inRange h), fun hexact c hc hwild => ?_,
      fun hrange tag => ?_⟩
    · rw [Condition.toSql, hy]
      rfl
    · apply not_inRange_stray hc hwild
      rw [← hexact, TagTest.holds_ofRange_lower]
      exact PassesRange.stray (ne_star_of_isWildcard hc hwild)
    · rw [TagTest.holds_ofRange_lower]
      exact ⟨fun h => h.inRange hrange, .of_inRange⟩

/-- The range of English has its regional tags in upper or lower case, and no other language whose
tag starts like its own. -/
theorem langMatches_selects_english :
    let s : ExpressionScope :=
      ⟨[⟨.column "tag", .string, true⟩], [], [("x", .value 0 .unknown true false)]⟩
    let x : Computed := ⟨.column 0, .string, .unknown, true, false⟩
    let resolve : Variable → Result SqlValue := fun _ => .ok (.tableColumn 0 "tag")
    (var "x").value s = .ok x ∧ x.scalar.toSql s.table resolve = .ok (.tableColumn 0 "tag") ∧
      ∃ c c' test,
        (langMatches (var "x") (.constant (.literal ⟨"EN", none, none⟩))).condition s = .ok c ∧
        c.toSql s.table resolve = .ok c' ∧
        TagTest.Written .postgres "s0.tag" test (Dialect.postgres.condition c') ∧
        test.Holds "en-US" ∧ ¬test.Holds "eng" := by
  intro s x resolve
  have hx : (var "x").value s = .ok x := rfl
  have hy : x.scalar.toSql s.table resolve = .ok (.tableColumn 0 "tag") := rfl
  obtain ⟨c, hc, hsql⟩ := langMatches_selects s (var "x") ⟨"EN", none, none⟩ hx
  obtain ⟨c', test, hc', hwritten, -, -, hexact⟩ := hsql .postgres s.table resolve _ hy
  have hrange := hexact.mpr
    (List.forall_mem_cons.mpr ⟨by decide, List.forall_mem_singleton.mpr (by decide)⟩)
  have htag : Dialect.postgres.value (.tableColumn 0 "tag") = "s0.tag" := by decide +kernel
  refine ⟨hx, hy, c, c', test, hc, hc', htag ▸ hwritten, ?_, ?_⟩
  · rw [hrange]
    decide +kernel
  · rw [hrange]
    decide +kernel

/-- Where the range holds a wildcard, a tag passes that is not in it. -/
theorem langMatches_passes_other_tags :
    let s : ExpressionScope :=
      ⟨[⟨.column "tag", .string, true⟩], [], [("x", .value 0 .unknown true false)]⟩
    let x := SqlValue.tableColumn 0 "tag"
    ∃ c test,
      (langMatches (var "x") (.constant (.literal ⟨"e_", none, none⟩))).condition s = .ok c ∧
      c.toSql s.table (fun _ => .ok x) = .ok (.langMatches x "e_") ∧
      Dialect.postgres.condition (.langMatches x "e_") =
        "(LOWER(s0.tag) = 'e_' OR LOWER(s0.tag) LIKE 'e_-%')" ∧
      TagTest.Written .postgres (Dialect.postgres.value x) test
        (Dialect.postgres.condition (.langMatches x "e_")) ∧
      test.Holds "en-us" ∧ ¬InRange "e_" "en-us" := by
  intro s x
  have hwritten := TagTest.written_ofRange .postgres x "e_"
  refine ⟨_, _, rfl, rfl, by decide +kernel, hwritten, .inr ?_, by decide +kernel⟩
  show Fits _ _
  decide +kernel

end Expression

end VirtualGraph
