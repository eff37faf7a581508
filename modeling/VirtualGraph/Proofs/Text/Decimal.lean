import Mathlib.Algebra.Order.Field.Rat
import Mathlib.Tactic.FieldSimp
import Mathlib.Tactic.NormNum
import VirtualGraph.Proofs.Text.Digits

/-!
# One spelling for each number

A constant of a numeric type is accepted in one spelling only. The accepted integers are the decimal
forms of the 64-bit integers. The accepted decimals are digits with a sign and a fraction where they
are needed, and each number that an integer times a power of ten can be has exactly one of them.

Digits with a point among them are those of an integer, divided by ten for each digit after the
point. Two spellings of one number with different numbers of such digits would make the longer
integer a multiple of ten, so that its last digit were a redundant zero.
-/

namespace VirtualGraph

namespace Text

/-- A decimal number as it may be written: digits, with a sign before them and a fraction after them
if need be. -/
structure Decimal where
  negative : Bool
  whole : List Char
  fraction : Option (List Char)
  wholeDigits : isDigits whole = true
  fractionDigits : ∀ f ∈ fraction, isDigits f = true

namespace Decimal

/-- The digits, with a point before the fraction. -/
def unsigned (n : Decimal) : List Char := n.whole ++ n.fraction.elim [] ('.' :: ·)

def text (n : Decimal) : String :=
  String.ofList (if n.negative then '-' :: n.unsigned else n.unsigned)

/-- The digits after the point. -/
def decimals (n : Decimal) : List Char := n.fraction.getD []

/-- The number without its sign. -/
def magnitude (n : Decimal) : ℚ :=
  digitsValue n.whole + digitsValue n.decimals / 10 ^ n.decimals.length

/-- The number that is written. -/
def value (n : Decimal) : ℚ := if n.negative then -n.magnitude else n.magnitude

/-- No digit and no sign is redundant. -/
structure IsCanonical (n : Decimal) : Prop where
  whole : isCanonicalWhole n.whole = true
  noTrailingZero : n.decimals.getLast? ≠ some '0'
  noSignedZero : n.negative = true → n.fraction = none → n.whole ≠ ['0']

variable {m n : Decimal} {k a : Nat}

/-- There is a point exactly if a digit stands after it. -/
theorem fraction_eq (n : Decimal) :
    n.fraction = if n.decimals = [] then none else some n.decimals := by
  obtain ⟨negative, whole, fraction, hwhole, hfraction⟩ := n
  cases fraction with
  | none => rfl
  | some f => exact (if_neg (isDigits_iff.mp (hfraction f rfl)).1).symm

theorem ext_decimals (hnegative : m.negative = n.negative) (hwhole : m.whole = n.whole)
    (hdecimals : m.decimals = n.decimals) : m = n := by
  have hfraction : m.fraction = n.fraction := by rw [fraction_eq m, fraction_eq n, hdecimals]
  cases m
  cases n
  cases hnegative
  cases hwhole
  cases hfraction
  rfl

theorem isDigit_of_mem_decimals {c : Char} (h : c ∈ n.decimals) : c.isDigit = true := by
  have hfraction := n.fraction_eq
  rw [if_neg (List.ne_nil_of_mem h)] at hfraction
  exact (isDigits_iff.mp (n.fractionDigits _ hfraction)).2 c h

/-! ### Equal numbers are written in the same way -/

/-- The integer that all digits make without the point. -/
def scaled (n : Decimal) : Nat := digitsValue (n.whole ++ n.decimals)

theorem magnitude_eq (n : Decimal) : n.magnitude = n.scaled / 10 ^ n.decimals.length := by
  rw [magnitude, scaled, digitsValue_append]
  push_cast
  field_simp

theorem IsCanonical.scaled_mod_ten (h : n.IsCanonical) (hne : n.decimals ≠ []) :
    n.scaled % 10 ≠ 0 := by
  have hlast := h.noTrailingZero
  have hdigit := n.decimals.getLast_mem hne
  rw [List.getLast?_eq_getLast_of_ne_nil hne, Ne, Option.some.injEq] at hlast
  have hrange := isDigit_iff.mp (isDigit_of_mem_decimals hdigit)
  have hne' : (n.decimals.getLast hne).toNat ≠ 48 := fun heq => hlast (Char.toNat_inj.mp heq)
  rw [scaled, ← List.dropLast_append_getLast hne, ← List.append_assoc, digitsValue_concat]
  omega

/-- Digits without a redundant zero at their end fix how many of them stand after the point. -/
theorem IsCanonical.length_decimals_le (hn : n.IsCanonical)
    (heq : m.scaled * 10 ^ n.decimals.length = n.scaled * 10 ^ m.decimals.length) :
    n.decimals.length ≤ m.decimals.length := by
  by_contra hlt
  obtain ⟨j, hj⟩ : ∃ j, n.decimals.length = m.decimals.length + (j + 1) :=
    ⟨n.decimals.length - m.decimals.length - 1, by omega⟩
  have hne : n.decimals ≠ [] := by
    intro hnil
    rw [hnil, List.length_nil] at hj
    omega
  have hscaled : n.scaled = 10 * (m.scaled * 10 ^ j) := by
    apply Nat.eq_of_mul_eq_mul_right (show 0 < 10 ^ m.decimals.length by positivity)
    rw [← heq, hj]
    ring
  apply hn.scaled_mod_ten hne
  omega

/-- The digits of a number with a given number of decimals. -/
theorem IsCanonical.digits_eq (hm : m.IsCanonical) (hn : n.IsCanonical)
    (hlength : m.decimals.length = n.decimals.length) (hscaled : m.scaled = n.scaled) :
    m.whole = n.whole ∧ m.decimals = n.decimals := by
  have hpos : 0 < 10 ^ n.decimals.length := by positivity
  have hm_lt := digitsValue_lt fun c (hc : c ∈ m.decimals) => isDigit_of_mem_decimals hc
  have hn_lt := digitsValue_lt fun c (hc : c ∈ n.decimals) => isDigit_of_mem_decimals hc
  rw [scaled, scaled, digitsValue_append, digitsValue_append, hlength] at hscaled
  rw [hlength] at hm_lt
  have hwhole : digitsValue m.whole = digitsValue n.whole := by
    have hdiv := congrArg (· / 10 ^ n.decimals.length) hscaled
    simpa only [Nat.mul_add_div hpos, Nat.div_eq_of_lt hm_lt, Nat.div_eq_of_lt hn_lt,
      Nat.add_zero] using hdiv
  have hdecimals : digitsValue m.decimals = digitsValue n.decimals := by
    rw [hwhole] at hscaled
    omega
  constructor
  · rw [← toDigits_digitsValue hm.whole, hwhole, toDigits_digitsValue hn.whole]
  · rw [← lastDigits_digitsValue fun c (hc : c ∈ m.decimals) => isDigit_of_mem_decimals hc, hlength,
      hdecimals, lastDigits_digitsValue fun c (hc : c ∈ n.decimals) => isDigit_of_mem_decimals hc]

theorem magnitude_nonneg (n : Decimal) : 0 ≤ n.magnitude := by
  rw [magnitude_eq]
  positivity

/-- A number with a sign is not zero. -/
theorem IsCanonical.magnitude_pos (h : n.IsCanonical) (hnegative : n.negative = true) :
    0 < n.magnitude := by
  have hscaled : n.scaled ≠ 0 := by
    intro hzero
    have hdecimals : n.decimals = [] := by
      by_contra hne
      exact h.scaled_mod_ten hne (by rw [hzero])
    have hfraction : n.fraction = none := by rw [fraction_eq, if_pos hdecimals]
    rw [scaled, hdecimals, List.append_nil] at hzero
    apply h.noSignedZero hnegative hfraction
    rw [← toDigits_digitsValue h.whole, hzero, Nat.toDigits_zero]
  have hpos : (0 : ℚ) < n.scaled := by exact_mod_cast Nat.pos_of_ne_zero hscaled
  rw [magnitude_eq]
  positivity

/-- The sign and the magnitude of a number are those of its spelling. -/
theorem IsCanonical.negative_iff (h : n.IsCanonical) : n.negative = true ↔ n.value < 0 := by
  have hnonneg := n.magnitude_nonneg
  cases hnegative : n.negative with
  | true =>
    have hpos := h.magnitude_pos hnegative
    simp [value, hnegative, hpos]
  | false => simp [value, hnegative, hnonneg]

theorem magnitude_eq_abs (n : Decimal) : n.magnitude = |n.value| := by
  have hnonneg := n.magnitude_nonneg
  unfold value
  split
  · rw [abs_neg, abs_of_nonneg hnonneg]
  · rw [abs_of_nonneg hnonneg]

/-- Equal numbers without redundant digits are written in the same way. -/
theorem IsCanonical.eq_of_value_eq (hm : m.IsCanonical) (hn : n.IsCanonical)
    (heq : m.value = n.value) : m = n := by
  have hnegative : m.negative = n.negative := by
    rw [Bool.eq_iff_iff, hm.negative_iff, hn.negative_iff, heq]
  have hmagnitude : m.magnitude = n.magnitude := by
    rw [magnitude_eq_abs, magnitude_eq_abs, heq]
  have hscaled : m.scaled * 10 ^ n.decimals.length = n.scaled * 10 ^ m.decimals.length := by
    rw [magnitude_eq, magnitude_eq, div_eq_div_iff (by positivity) (by positivity)] at hmagnitude
    exact_mod_cast hmagnitude
  have hlength : m.decimals.length = n.decimals.length :=
    Nat.le_antisymm (hm.length_decimals_le hscaled.symm) (hn.length_decimals_le hscaled)
  rw [hlength] at hscaled
  have hdigits := hm.digits_eq hn hlength (Nat.eq_of_mul_eq_mul_right (by positivity) hscaled)
  exact ext_decimals hnegative hdigits.1 hdigits.2

/-! ### Every decimal number can be written -/

theorem exists_isCanonical_integer (negative : Bool) (a : Nat) (ha : negative = true → 0 < a) :
    ∃ n : Decimal, n.IsCanonical ∧ n.negative = negative ∧ n.magnitude = a := by
  have hnone (f : List Char) (hf : f ∈ (none : Option (List Char))) : isDigits f = true :=
    absurd hf (Option.not_mem_none f)
  refine ⟨⟨negative, Nat.toDigits 10 a, none, isDigits_toDigits a, hnone⟩, ⟨?_, ?_, ?_⟩, rfl, ?_⟩
  · exact isCanonicalWhole_toDigits a
  · intro h
    cases h
  · intro hnegative _ hzero
    have hvalue := congrArg digitsValue hzero
    rw [digitsValue_toDigits] at hvalue
    exact absurd hvalue (Nat.ne_of_gt (ha hnegative))
  · rw [magnitude_eq, scaled, decimals, Option.getD_none, List.append_nil, digitsValue_toDigits,
      List.length_nil, pow_zero, div_one]

theorem exists_isCanonical_fraction (negative : Bool) {a : Nat} (k : Nat) (ha : a % 10 ≠ 0) :
    ∃ n : Decimal, n.IsCanonical ∧ n.negative = negative ∧ n.magnitude = a / 10 ^ (k + 1) := by
  have hlast : (lastDigits (k + 1) a).getLast? = some (Nat.digitChar (a % 10)) := by
    rw [lastDigits, List.getLast?_concat]
  have hfraction (f : List Char) (hf : f ∈ some (lastDigits (k + 1) a)) : isDigits f = true := by
    rw [← Option.mem_some.mp hf, isDigits_iff]
    refine ⟨?_, fun c hc => isDigit_of_mem_lastDigits hc⟩
    intro hnil
    rw [hnil] at hlast
    cases hlast
  refine ⟨⟨negative, Nat.toDigits 10 (a / 10 ^ (k + 1)), some (lastDigits (k + 1) a),
    isDigits_toDigits _, hfraction⟩, ⟨?_, ?_, ?_⟩, rfl, ?_⟩
  · exact isCanonicalWhole_toDigits _
  · rw [decimals, Option.getD_some, hlast, Ne, Option.some.injEq, Nat.digitChar_eq_zero]
    exact ha
  · intro _ h
    cases h
  · rw [magnitude_eq, scaled, decimals, Option.getD_some, digitsValue_append, digitsValue_toDigits,
      digitsValue_lastDigits, length_lastDigits, Nat.div_add_mod]

/-- An integer divided by a power of ten is written without redundant digits. The induction is on
the power: as long as the integer is a multiple of ten, one ten is cancelled. -/
theorem exists_isCanonical (negative : Bool) (a k : Nat) (ha : negative = true → 0 < a) :
    ∃ n : Decimal, n.IsCanonical ∧ n.negative = negative ∧ n.magnitude = a / 10 ^ k := by
  induction k generalizing a with
  | zero =>
    rw [pow_zero, div_one]
    exact exists_isCanonical_integer negative a ha
  | succ k ih =>
    by_cases hten : a % 10 = 0
    · obtain ⟨b, rfl⟩ := Nat.dvd_of_mod_eq_zero hten
      obtain ⟨n, hn, hnegative, hmagnitude⟩ := ih b fun h => by have := ha h; omega
      refine ⟨n, hn, hnegative, ?_⟩
      rw [hmagnitude, pow_succ]
      push_cast
      field_simp
    · exact exists_isCanonical_fraction negative k hten

/-- Every integer times a power of ten is the value of a spelling. -/
theorem exists_isCanonical_value (a e : ℤ) :
    ∃ n : Decimal, n.IsCanonical ∧ n.value = a * 10 ^ e := by
  obtain ⟨b, k, hq⟩ : ∃ (b : ℤ) (k : ℕ), (a * 10 ^ e : ℚ) = b / 10 ^ k := by
    rcases Int.eq_nat_or_neg e with ⟨k, rfl | rfl⟩
    · exact ⟨a * 10 ^ k, 0, by simp⟩
    · exact ⟨a, k, by rw [zpow_neg, zpow_natCast]; rfl⟩
  obtain ⟨n, hn, hnegative, hmagnitude⟩ := exists_isCanonical (decide (b < 0)) b.natAbs k
    fun h => Int.natAbs_pos.mpr (ne_of_lt (of_decide_eq_true h))
  refine ⟨n, hn, ?_⟩
  rw [hq, value, hnegative, hmagnitude]
  have habs : ((b.natAbs : ℕ) : ℚ) = |(b : ℚ)| := by rw [Nat.cast_natAbs, Int.cast_abs]
  rcases lt_or_ge b 0 with hb | hb
  · rw [if_pos (decide_eq_true hb), habs, abs_of_neg (by exact_mod_cast hb), neg_div, neg_neg]
  · rw [if_neg (by simpa using hb), habs, abs_of_nonneg (by exact_mod_cast hb)]

/-! ### What is accepted -/

theorem splitPoint_append {whole : List Char} (h : '.' ∉ whole) (fraction : Option (List Char)) :
    splitPoint (whole ++ fraction.elim [] ('.' :: ·)) = (whole, fraction) := by
  induction whole with
  | nil => cases fraction <;> rfl
  | cons c whole ih =>
    rw [List.mem_cons, not_or] at h
    rw [List.cons_append, splitPoint, if_neg (Ne.symm h.1), ih h.2]

theorem append_splitPoint (cs : List Char) :
    (splitPoint cs).1 ++ (splitPoint cs).2.elim [] ('.' :: ·) = cs := by
  induction cs with
  | nil => rfl
  | cons c cs ih =>
    rw [splitPoint]
    split
    · rename_i hc
      rw [hc]
      rfl
    · exact congrArg (c :: ·) ih

theorem splitPoint_unsigned (n : Decimal) : splitPoint n.unsigned = (n.whole, n.fraction) := by
  apply splitPoint_append
  intro hpoint
  have hdigit := (isDigits_iff.mp n.wholeDigits).2 '.' hpoint
  exact absurd hdigit (by decide)

theorem head?_unsigned_ne_minus (n : Decimal) : n.unsigned.head? ≠ some '-' := by
  obtain ⟨hne, hdigits⟩ := isDigits_iff.mp n.wholeDigits
  rw [unsigned, List.head?_append_of_ne_nil _ hne]
  intro hminus
  have hdigit := hdigits '-' (List.mem_of_head? hminus)
  exact absurd hdigit (by decide)

/-- Takes off the sign of a text. -/
def splitSign : List Char → Bool × List Char
  | '-' :: rest => (true, rest)
  | cs => (false, cs)

theorem append_splitSign (cs : List Char) :
    (if (splitSign cs).1 then '-' :: (splitSign cs).2 else (splitSign cs).2) = cs := by
  unfold splitSign
  split <;> rfl

theorem splitSign_text (n : Decimal) : splitSign n.text.toList = (n.negative, n.unsigned) := by
  rw [text, String.toList_ofList]
  cases n.negative with
  | true => rfl
  | false =>
    have hhead := n.head?_unsigned_ne_minus
    rw [if_neg Bool.false_ne_true]
    cases hchars : n.unsigned with
    | nil => rfl
    | cons c cs =>
      rw [hchars] at hhead
      rw [splitSign]
      rintro rest ⟨rfl, -⟩
      exact hhead rfl

theorem text_injective : Function.Injective text := by
  intro m n htext
  have hsign := congrArg (splitSign ·.toList) htext
  simp only [splitSign_text, Prod.mk.injEq] at hsign
  have hparts := congrArg splitPoint hsign.2
  simp only [splitPoint_unsigned, Prod.mk.injEq] at hparts
  apply ext_decimals hsign.1 hparts.1
  rw [decimals, decimals, hparts.2]

/-- The test of a decimal, after its sign is taken off and it is split at the point. -/
def accepts (negative : Bool) (whole : List Char) (fraction : Option (List Char)) : Bool :=
  isCanonicalWhole whole &&
    match fraction with
    | some f => isDigits f && f.getLast? != some '0'
    | none => !(negative && whole == ['0'])

theorem isCanonicalDecimal_eq (s : String) :
    isCanonicalDecimal s =
      accepts (splitSign s.toList).1 (splitPoint (splitSign s.toList).2).1
        (splitPoint (splitSign s.toList).2).2 :=
  rfl

theorem isCanonical_iff : n.IsCanonical ↔ isCanonicalWhole n.whole = true ∧
    n.decimals.getLast? ≠ some '0' ∧ (n.negative = true → n.fraction = none → n.whole ≠ ['0']) :=
  ⟨fun h => ⟨h.whole, h.noTrailingZero, h.noSignedZero⟩, fun h => ⟨h.1, h.2.1, h.2.2⟩⟩

theorem accepts_iff (n : Decimal) :
    accepts n.negative n.whole n.fraction = true ↔ n.IsCanonical := by
  rw [isCanonical_iff, decimals]
  cases hf : n.fraction with
  | none => cases n.negative <;> simp [accepts]
  | some f => simp [accepts, n.fractionDigits f hf]

theorem exists_of_accepts {negative : Bool} {whole : List Char} {fraction : Option (List Char)}
    (h : accepts negative whole fraction = true) :
    ∃ n : Decimal, n.negative = negative ∧ n.whole = whole ∧ n.fraction = fraction := by
  obtain ⟨hcanonical, hfraction⟩ := Bool.and_eq_true_iff.mp h
  have hwhole : isDigits whole = true := (Bool.and_eq_true_iff.mp hcanonical).1
  refine ⟨⟨negative, whole, fraction, hwhole, fun f hf => ?_⟩, rfl, rfl, rfl⟩
  rw [Option.mem_def.mp hf] at hfraction
  exact (Bool.and_eq_true_iff.mp hfraction).1

/-- The accepted texts are the spellings without redundant digits. -/
theorem isCanonicalDecimal_iff (s : String) :
    isCanonicalDecimal s = true ↔ ∃ n : Decimal, n.text = s ∧ n.IsCanonical := by
  rw [isCanonicalDecimal_eq]
  constructor
  · intro h
    obtain ⟨n, hnegative, hwhole, hfraction⟩ := exists_of_accepts h
    rw [← hnegative, ← hwhole, ← hfraction] at h
    refine ⟨n, ?_, (accepts_iff n).mp h⟩
    rw [text, unsigned, hnegative, hwhole, hfraction, append_splitPoint, append_splitSign,
      String.ofList_toList]
  · rintro ⟨n, rfl, hn⟩
    rw [splitSign_text, splitPoint_unsigned]
    exact (accepts_iff n).mpr hn

/-- A text is the spelling of a number. -/
def Denotes (s : String) (q : ℚ) : Prop := ∃ n : Decimal, n.text = s ∧ n.value = q

theorem denotes_text_iff {q : ℚ} : Denotes n.text q ↔ n.value = q := by
  constructor
  · rintro ⟨m, htext, rfl⟩
    rw [text_injective htext]
  · intro hq
    exact ⟨n, rfl, hq⟩

theorem eq_of_denotes {s s' : String} {q : ℚ} (hs : isCanonicalDecimal s = true)
    (hs' : isCanonicalDecimal s' = true) (hq : Denotes s q) (hq' : Denotes s' q) : s = s' := by
  obtain ⟨m, rfl, hm⟩ := (isCanonicalDecimal_iff s).mp hs
  obtain ⟨n, rfl, hn⟩ := (isCanonicalDecimal_iff s').mp hs'
  rw [denotes_text_iff] at hq hq'
  rw [hm.eq_of_value_eq hn (hq.trans hq'.symm)]

end Decimal

end Text

/-- Constants of numeric types are accepted in one spelling for each value. The accepted integers
are the decimal forms of the 64-bit integers. The accepted decimals are digits with a sign and a
fraction or without; each integer times a power of ten has exactly one of them, and no two of them
stand for one number. -/
theorem SqlType.isLexical_one_spelling :
    (∀ s, integer.isLexical s = true ↔ ∃ n : Int64, s = toString n) ∧
    ∀ type, type = decimal ∨ type = float →
      (∀ s, type.isLexical s = true → ∃ n : Text.Decimal, n.text = s) ∧
      (∀ a e : ℤ, ∃! s, type.isLexical s = true ∧ Text.Decimal.Denotes s (a * 10 ^ e)) ∧
      ∀ s s' q, type.isLexical s = true → type.isLexical s' = true →
        Text.Decimal.Denotes s q → Text.Decimal.Denotes s' q → s = s' := by
  refine ⟨Text.isCanonicalInteger_iff, fun type htype => ?_⟩
  have hlexical : type.isLexical = Text.isCanonicalDecimal := by
    rcases htype with rfl | rfl
    · rfl
    · rfl
  rw [hlexical]
  refine ⟨fun s hs => ?_, fun a e => ?_, fun s s' q => Text.Decimal.eq_of_denotes⟩
  · obtain ⟨n, hn, -⟩ := (Text.Decimal.isCanonicalDecimal_iff s).mp hs
    exact ⟨n, hn⟩
  · obtain ⟨n, hn, hvalue⟩ := Text.Decimal.exists_isCanonical_value a e
    have haccepted := (Text.Decimal.isCanonicalDecimal_iff n.text).mpr ⟨n, rfl, hn⟩
    have hdenotes : Text.Decimal.Denotes n.text (a * 10 ^ e) := ⟨n, rfl, hvalue⟩
    refine ⟨n.text, ⟨haccepted, hdenotes⟩, fun s hs => ?_⟩
    exact Text.Decimal.eq_of_denotes hs.1 haccepted hs.2 hdenotes

/-- The least integer is accepted, and a quarter only as `0.25`. -/
theorem SqlType.isLexical_one_spelling_quarter :
    integer.isLexical "-9223372036854775808" = true ∧
    float.isLexical "0.25" = true ∧ Text.Decimal.Denotes "0.25" (25 * 10 ^ (-2 : ℤ)) ∧
    ∀ s, float.isLexical s = true → Text.Decimal.Denotes s (25 * 10 ^ (-2 : ℤ)) → s = "0.25" := by
  have haccepted : float.isLexical "0.25" = true := by decide
  have hdenotes : Text.Decimal.Denotes "0.25" (25 * 10 ^ (-2 : ℤ)) := by
    refine ⟨⟨false, ['0'], some ['2', '5'], rfl, ?_⟩, rfl, ?_⟩
    · rintro f ⟨⟩
      rfl
    · have hwhole : Text.digitsValue ['0'] = 0 := by decide
      have hdecimals : Text.digitsValue ['2', '5'] = 25 := by decide
      change (Text.digitsValue ['0'] : ℚ) + Text.digitsValue ['2', '5'] / 10 ^ 2 = _
      rw [hwhole, hdecimals]
      norm_num
  refine ⟨isLexical_one_spelling.1 _ |>.mpr ⟨Int64.minValue, rfl⟩, haccepted, hdenotes, ?_⟩
  intro s hs hq
  exact (isLexical_one_spelling.2 float (.inr rfl)).2.2 s "0.25" _ hs haccepted hq hdenotes

end VirtualGraph
