import VirtualGraph.Proofs.Bound.Candidate
import VirtualGraph.Proofs.Text.Percent

/-!
# Spellings with escapes

An IRI is spelled with escapes if the unreserved characters and some separators of its text are
written as they are, and all others as a percent sign and two digits. Decoding gives back the text
that is spelled. A spelling can be cut between any two characters of the text; if it is cut inside
an escape, what is left of the escape is decoded as it is, so that a percent sign shows.
-/

namespace VirtualGraph.Text

/-- Reserved characters that are written as they are. -/
structure Separators where
  holds : Char → Bool
  noPercent : holds '%' = false

/-- The characters that a percent-encoded text stands for. -/
def decodeChars (cs : List Char) : List Char := decodeUtf8From .between (percentBytes cs)

theorem toList_percentDecode (s : String) : (percentDecode s).toList = decodeChars s.toList :=
  String.toList_ofList

@[simp] theorem decodeChars_nil : decodeChars [] = [] := rfl

theorem decodeChars_cons {c : Char} (h : c ≠ '%') (cs : List Char) :
    decodeChars (c :: cs) = c :: decodeChars cs := by
  have hbytes : percentBytes (c :: cs) = utf8Bytes c ++ percentBytes cs := by
    rw [percentBytes]
    exact fun _ _ _ hc => absurd hc h
  rw [decodeChars, hbytes, decodeUtf8From_utf8Bytes]
  rfl

theorem decodeChars_escape {a b c : Char} {x y : Nat} (ha : hexValue? a = some x)
    (hb : hexValue? b = some y) (hc : c.toNat = 16 * x + y) (hlt : c.toNat < 0x80)
    (cs : List Char) : decodeChars ('%' :: a :: b :: cs) = c :: decodeChars cs := by
  have hbytes : utf8Bytes c = [16 * x + y] := by
    rw [← hc]
    exact if_pos hlt
  have hescape : percentBytes ('%' :: a :: b :: cs) = utf8Bytes c ++ percentBytes cs := by
    rw [percentBytes, ha, hb, hbytes]
    rfl
  rw [decodeChars, hescape, decodeUtf8From_utf8Bytes]
  rfl

theorem isRunChar_of_hexValue? {c : Char} {x : Nat} (h : hexValue? c = some x) :
    Pattern.isRunChar c = true := by
  simp only [hexValue?] at h
  simp only [Pattern.isRunChar, Bool.or_eq_true]
  grind

/-! ### Texts as encoding writes them -/

theorem hexValue?_hexDigit {n : Nat} (h : n < 16) : hexValue? (hexDigit n) = some n :=
  (by decide : ∀ n < 16, hexValue? (hexDigit n) = some n) n h

theorem decodeChars_percentEscape {c : Char} (h : isUnreserved c = false) (cs : List Char) :
    decodeChars (percentEscape c ++ cs) = c :: decodeChars cs := by
  have hlt := toNat_lt_of_reserved h
  have hbytes : utf8Bytes c = [c.toNat] := if_pos hlt
  rw [percentEscape, hbytes, List.flatMap_singleton]
  exact decodeChars_escape (hexValue?_hexDigit (by omega)) (hexValue?_hexDigit (by omega))
    (by omega) hlt cs

/-- Decoding undoes encoding. -/
theorem percentDecode_percentEncode (s : String) : percentDecode (percentEncode s) = s := by
  rw [← String.toList_inj, toList_percentDecode, percentEncode, String.toList_ofList]
  induction s.toList with
  | nil => rfl
  | cons c cs ih =>
    rw [List.flatMap_cons]
    cases hc : isUnreserved c with
    | true =>
      have hpercent : c ≠ '%' := by
        rintro rfl
        exact absurd hc (by decide)
      exact (decodeChars_cons hpercent _).trans (congrArg _ ih)
    | false => exact (decodeChars_percentEscape hc _).trans (congrArg _ ih)

theorem percentEncode_injective : Function.Injective percentEncode :=
  Function.LeftInverse.injective percentDecode_percentEncode

theorem percentEncode_join (ts : List String) :
    percentEncode (String.join ts) = String.join (ts.map percentEncode) := by
  rw [← String.toList_inj, percentEncode, String.toList_ofList, String.toList_join,
    String.toList_join, List.flatMap_assoc, List.flatMap_map]
  exact List.flatMap_congr fun t _ => String.toList_ofList.symm

/-- The text is what encoding makes of some text, namely of the one that it is decoded to. -/
def IsEncoded (t : String) : Prop := percentEncode (percentDecode t) = t

instance : DecidablePred IsEncoded := fun t =>
  inferInstanceAs (Decidable (percentEncode (percentDecode t) = t))

theorem eq_percentEncode_iff {t s : String} :
    t = percentEncode s ↔ percentDecode t = s ∧ IsEncoded t := by
  constructor
  · rintro rfl
    rw [IsEncoded, percentDecode_percentEncode]
    exact ⟨rfl, rfl⟩
  · rintro ⟨rfl, h⟩
    exact h.symm

theorem isEncoded_of_isUnreserved {t : String} (h : ∀ c ∈ t.toList, isUnreserved c = true) :
    IsEncoded t := by
  have hpercent : '%' ∉ t.toList := fun hc => absurd (h _ hc) (by decide)
  rw [IsEncoded, percentDecode_eq_self hpercent, percentEncode_eq_self h]

theorem isUnreserved_of_isRunChar {c : Char} (h : Pattern.isRunChar c = true) (hc : c ≠ '%') :
    isUnreserved c = true := by
  simp only [Pattern.isRunChar, isUnreserved, Bool.or_eq_true, beq_iff_eq] at h ⊢
  tauto

/-! ### Spellings -/

namespace Separators

variable {S : Separators} {c : Char} {cs ds u v : List Char}

/-- The characters that are written as they are. -/
def plain (S : Separators) (c : Char) : Bool := isUnreserved c || S.holds c

/-- A text of plain characters. -/
abbrev Plain (S : Separators) (cs : List Char) : Prop := ∀ c ∈ cs, S.plain c = true

theorem ne_percent (h : S.plain c = true) : c ≠ '%' := by
  rintro rfl
  have hnot : S.plain '%' = false := by
    rw [plain, S.noPercent]
    decide
  simp [hnot] at h

theorem toNat_lt_of_not_plain (h : S.plain c = false) : c.toNat < 0x80 :=
  toNat_lt_of_reserved (Bool.or_eq_false_iff.mp h).1

/-- How a text is spelled: plain characters as they are, all others escaped. -/
inductive Spells (S : Separators) : List Char → List Char → Prop
  | nil : Spells S [] []
  | plain {c : Char} {cs u : List Char} (hplain : S.plain c = true) (rest : Spells S cs u) :
      Spells S (c :: cs) (c :: u)
  | escaped {a b c : Char} {x y : Nat} {cs u : List Char} (high : hexValue? a = some x)
      (low : hexValue? b = some y) (value : c.toNat = 16 * x + y) (hreserved : S.plain c = false)
      (rest : Spells S cs u) : Spells S ('%' :: a :: b :: cs) (c :: u)

theorem spells_of_plain (h : S.Plain cs) : S.Spells cs cs := by
  induction cs with
  | nil => exact .nil
  | cons c cs ih =>
    rw [Plain, List.forall_mem_cons] at h
    exact .plain h.1 (ih h.2)

theorem Spells.append (h : S.Spells cs u) (h' : S.Spells ds v) : S.Spells (cs ++ ds) (u ++ v) := by
  induction h with
  | nil => exact h'
  | plain hplain _ ih => exact .plain hplain ih
  | escaped high low value hreserved _ ih => exact .escaped high low value hreserved ih

theorem Spells.decodeChars (h : S.Spells cs u) : decodeChars cs = u := by
  induction h with
  | nil => rfl
  | plain hplain _ ih => rw [decodeChars_cons (ne_percent hplain), ih]
  | escaped high low value hreserved _ ih =>
    rw [decodeChars_escape high low value (toNat_lt_of_not_plain hreserved), ih]

/-- A spelling can be cut wherever the text can. -/
theorem Spells.split (h : S.Spells cs (u ++ v)) :
    ∃ cs₁ cs₂, cs = cs₁ ++ cs₂ ∧ S.Spells cs₁ u ∧ S.Spells cs₂ v := by
  induction u generalizing cs with
  | nil => exact ⟨[], cs, rfl, .nil, h⟩
  | cons c u ih =>
    cases h with
    | plain hplain rest =>
      obtain ⟨cs₁, cs₂, rfl, h₁, h₂⟩ := ih rest
      exact ⟨c :: cs₁, cs₂, rfl, .plain hplain h₁, h₂⟩
    | escaped high low value hreserved rest =>
      obtain ⟨cs₁, cs₂, rfl, h₁, h₂⟩ := ih rest
      exact ⟨_ :: _ :: _ :: cs₁, cs₂, rfl, .escaped high low value hreserved h₁, h₂⟩

/-- A text of plain characters has one spelling. -/
theorem Spells.eq_of_plain (h : S.Spells cs u) (hu : S.Plain u) : cs = u := by
  induction h with
  | nil => rfl
  | plain _ _ ih =>
    rw [Plain, List.forall_mem_cons] at hu
    rw [ih hu.2]
  | escaped _ _ _ hreserved _ _ =>
    rw [Plain, List.forall_mem_cons, hreserved] at hu
    exact absurd hu.1 Bool.false_ne_true

/-- A spelling has no reserved character but the separators of its text. -/
theorem Spells.isRunChar (h : S.Spells cs u) (hu : ∀ c ∈ u, Pattern.isRunChar c = true ∨
    S.holds c = false) : ∀ c ∈ cs, Pattern.isRunChar c = true := by
  induction h with
  | nil => exact fun _ hc => absurd hc List.not_mem_nil
  | @plain c _ _ hplain _ ih =>
    rw [List.forall_mem_cons] at hu ⊢
    refine ⟨hu.1.elim id fun hseparator => ?_, ih hu.2⟩
    rw [Separators.plain, hseparator, Bool.or_false] at hplain
    exact isRunChar_of_isUnreserved hplain
  | escaped high low _ _ _ ih =>
    rw [List.forall_mem_cons] at hu
    have hdigits := isRunChar_of_hexValue? high
    have hdigits' := isRunChar_of_hexValue? low
    simp only [List.forall_mem_cons]
    exact ⟨by decide, hdigits, hdigits', ih hu.2⟩

/-! ### Spellings that are cut off -/

/-- The beginning of a spelling, which may end inside an escape. -/
inductive Begins (S : Separators) : List Char → Prop
  | nil : Begins S []
  | plain {c : Char} {cs : List Char} (hplain : S.plain c = true) (rest : Begins S cs) :
      Begins S (c :: cs)
  | escaped {a b c : Char} {x y : Nat} {cs : List Char} (high : hexValue? a = some x)
      (low : hexValue? b = some y) (value : c.toNat = 16 * x + y) (hreserved : S.plain c = false)
      (rest : Begins S cs) : Begins S ('%' :: a :: b :: cs)
  | sign : Begins S ['%']
  | half {a : Char} {x : Nat} (high : hexValue? a = some x) : Begins S ['%', a]

theorem Spells.begins (h : S.Spells cs u) : S.Begins cs := by
  induction h with
  | nil => exact .nil
  | plain hplain _ ih => exact .plain hplain ih
  | escaped high low value hreserved _ ih => exact .escaped high low value hreserved ih

theorem Begins.left (h : S.Begins (cs ++ ds)) : S.Begins cs := by
  generalize hall : cs ++ ds = all at h
  induction h generalizing cs with
  | nil =>
    rw [(List.append_eq_nil_iff.mp hall).1]
    exact .nil
  | plain hplain _ ih =>
    obtain ⟨rfl, -⟩ | ⟨cs', rfl, hrest⟩ := List.append_eq_cons_iff.mp hall
    · exact .nil
    · exact .plain hplain (ih hrest.symm)
  | escaped high low value hreserved _ ih =>
    match cs, hall with
    | [], _ => exact .nil
    | [_], hall =>
      cases (List.cons.inj hall).1
      exact .sign
    | [_, _], hall =>
      cases hall
      exact .half high
    | _ :: _ :: _ :: cs, hall =>
      simp only [List.cons_append, List.cons.injEq] at hall
      obtain ⟨rfl, rfl, rfl, hrest⟩ := hall
      exact .escaped high low value hreserved (ih hrest)
  | sign =>
    match cs, hall with
    | [], _ => exact .nil
    | _ :: cs, hall =>
      obtain ⟨rfl, hrest⟩ := List.cons.inj hall
      rw [(List.append_eq_nil_iff.mp hrest).1]
      exact .sign
  | half high =>
    match cs, hall with
    | [], _ => exact .nil
    | [_], hall =>
      cases (List.cons.inj hall).1
      exact .sign
    | _ :: _ :: cs, hall =>
      simp only [List.cons_append, List.cons.injEq] at hall
      obtain ⟨rfl, rfl, hrest⟩ := hall
      rw [(List.append_eq_nil_iff.mp hrest).1]
      exact .half high

theorem Begins.tail (h : S.Begins (c :: cs)) (hc : c ≠ '%') : S.Begins cs := by
  cases h with
  | plain _ rest => exact rest
  | escaped => exact absurd rfl hc
  | sign => exact absurd rfl hc
  | half => exact absurd rfl hc

theorem Begins.drop_plain (h : S.Begins (cs ++ ds)) (hcs : S.Plain cs) : S.Begins ds := by
  induction cs with
  | nil => exact h
  | cons c cs ih =>
    rw [Plain, List.forall_mem_cons] at hcs
    exact ih (Begins.tail h (ne_percent hcs.1)) hcs.2

/-- Where an escape is cut off, decoding shows a percent sign. -/
theorem Begins.spells (h : S.Begins cs) (hpercent : '%' ∉ Text.decodeChars cs) :
    S.Spells cs (Text.decodeChars cs) := by
  induction h with
  | nil => exact .nil
  | plain hplain _ ih =>
    rw [decodeChars_cons (ne_percent hplain), List.mem_cons, not_or] at hpercent
    rw [decodeChars_cons (ne_percent hplain)]
    exact .plain hplain (ih hpercent.2)
  | escaped high low value hreserved _ ih =>
    have hlt := toNat_lt_of_not_plain hreserved
    rw [decodeChars_escape high low value hlt, List.mem_cons, not_or] at hpercent
    rw [decodeChars_escape high low value hlt]
    exact .escaped high low value hreserved (ih hpercent.2)
  | sign => exact absurd (by decide) hpercent
  | @half a x high =>
    have hbytes : percentBytes ['%', a] = utf8Bytes '%' ++ percentBytes [a] := by
      rw [percentBytes]
      exact fun _ _ _ _ h => by cases h
    rw [Text.decodeChars, hbytes, decodeUtf8From_utf8Bytes] at hpercent
    exact absurd List.mem_cons_self hpercent

/-- After a run up to a reserved character, the rest of a spelling begins afresh. -/
theorem Begins.dropWhile (h : S.Begins cs) : S.Begins (cs.dropWhile Pattern.isRunChar) := by
  have hpercent : Pattern.isRunChar '%' = true := by decide
  induction h with
  | nil => exact .nil
  | @plain c _ hplain h ih =>
    by_cases hrun : Pattern.isRunChar c = true
    · rwa [List.dropWhile_cons_of_pos hrun]
    · rw [List.dropWhile_cons_of_neg hrun]
      exact .plain hplain h
  | escaped high low _ _ _ ih =>
    rwa [List.dropWhile_cons_of_pos hpercent, List.dropWhile_cons_of_pos
      (isRunChar_of_hexValue? high), List.dropWhile_cons_of_pos (isRunChar_of_hexValue? low)]
  | sign => exact .nil
  | half high =>
    rw [List.dropWhile_cons_of_pos hpercent, List.dropWhile_cons_of_pos
      (isRunChar_of_hexValue? high)]
    exact .nil

end Separators

end VirtualGraph.Text
