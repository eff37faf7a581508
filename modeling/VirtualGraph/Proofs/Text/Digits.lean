import Mathlib.Data.List.Induction
import Mathlib.Tactic.Positivity
import Mathlib.Tactic.Ring
import VirtualGraph.Draft.Equality
import VirtualGraph.Proofs.Text.Letters

/-!
# Digits and integers

Digits and the number that they write. Without a redundant leading zero the digits are those of
their number; with leading zeros they are fixed by their number and how many they are. The accepted
integers are the decimal forms of the 64-bit integers.
-/

namespace VirtualGraph

namespace Text

/-! ### Digits -/

section

variable {cs : List Char} {c : Char} {n k : Nat}

theorem isDigits_iff : isDigits cs = true ↔ cs ≠ [] ∧ ∀ c ∈ cs, c.isDigit = true := by
  simp [isDigits]

theorem digitsValue_append (cs ds : List Char) :
    digitsValue (cs ++ ds) = 10 ^ ds.length * digitsValue cs + digitsValue ds := by
  have hvalue (cs : List Char) : digitsValue cs = Nat.ofDigitChars 10 cs 0 :=
    Nat.ofDigitChars_eq_foldl.symm
  simp only [hvalue]
  rw [Nat.ofDigitChars_append, Nat.ofDigitChars_eq_ofDigitChars_zero]

theorem digitsValue_singleton (c : Char) : digitsValue [c] = c.toNat - 48 := by
  simp [digitsValue]

theorem digitsValue_concat (cs : List Char) (c : Char) :
    digitsValue (cs ++ [c]) = 10 * digitsValue cs + (c.toNat - 48) := by
  rw [digitsValue_append, digitsValue_singleton, List.length_singleton, pow_one]

theorem digitsValue_lt (hcs : ∀ c ∈ cs, c.isDigit = true) : digitsValue cs < 10 ^ cs.length := by
  induction cs using List.reverseRecOn with
  | nil => exact Nat.one_pos
  | append_singleton cs c ih =>
    have hrange := isDigit_iff.mp (hcs c (by simp))
    have hinit := ih fun c hc => hcs c (List.mem_append_left _ hc)
    rw [digitsValue_concat, List.length_append, List.length_singleton, pow_succ]
    omega

theorem digitChar_of_isDigit (h : c.isDigit = true) : Nat.digitChar (c.toNat - 48) = c := by
  have hrange := isDigit_iff.mp h
  apply Char.toNat_inj.mp
  rw [Nat.toNat_digitChar_of_lt_ten (by omega)]
  omega

theorem toDigits_of_isDigit (h : c.isDigit = true) : Nat.toDigits 10 (c.toNat - 48) = [c] := by
  have hrange := isDigit_iff.mp h
  rw [Nat.toDigits_of_lt_base (by omega), digitChar_of_isDigit h]

/-- The last `k` digits of a number, zeros included. -/
def lastDigits : Nat → Nat → List Char
  | 0, _ => []
  | k + 1, n => lastDigits k (n / 10) ++ [Nat.digitChar (n % 10)]

@[simp] theorem length_lastDigits (k n : Nat) : (lastDigits k n).length = k := by
  induction k generalizing n with
  | zero => rfl
  | succ k ih => simp [lastDigits, ih]

theorem isDigit_of_mem_lastDigits (h : c ∈ lastDigits k n) : c.isDigit = true := by
  induction k generalizing n with
  | zero => exact absurd h List.not_mem_nil
  | succ k ih =>
    rcases List.mem_append.mp h with h | h
    · exact ih h
    · rw [List.mem_singleton.mp h, Nat.isDigit_digitChar]
      exact decide_eq_true (Nat.mod_lt n (by decide))

theorem digitsValue_lastDigits (k n : Nat) : digitsValue (lastDigits k n) = n % 10 ^ k := by
  induction k generalizing n with
  | zero => rw [pow_zero, Nat.mod_one]; rfl
  | succ k ih =>
    have hdigit : (Nat.digitChar (n % 10)).toNat - 48 = n % 10 :=
      Nat.toNat_digitChar_sub_48_of_lt_ten (Nat.mod_lt n (by decide))
    rw [lastDigits, digitsValue_concat, ih, hdigit, pow_succ', Nat.mod_mul]
    omega

/-- Digits are determined by their number and their value. -/
theorem lastDigits_digitsValue (hcs : ∀ c ∈ cs, c.isDigit = true) :
    lastDigits cs.length (digitsValue cs) = cs := by
  induction cs using List.reverseRecOn with
  | nil => rfl
  | append_singleton cs c ih =>
    have hc : c.isDigit = true := hcs c (by simp)
    have hrange := isDigit_iff.mp hc
    have hinit := ih fun c hc => hcs c (List.mem_append_left _ hc)
    rw [digitsValue_concat, List.length_append, List.length_singleton, lastDigits]
    rw [show (10 * digitsValue cs + (c.toNat - 48)) / 10 = digitsValue cs by omega, hinit,
      show (10 * digitsValue cs + (c.toNat - 48)) % 10 = c.toNat - 48 by omega,
      digitChar_of_isDigit hc]

/-- Digits after a positive number are its further digits. -/
theorem toDigits_append (hn : 0 < n) (hcs : ∀ c ∈ cs, c.isDigit = true) :
    Nat.toDigits 10 n ++ cs = Nat.toDigits 10 (10 ^ cs.length * n + digitsValue cs) := by
  induction cs using List.reverseRecOn with
  | nil => simp [digitsValue]
  | append_singleton cs c ih =>
    have hc : c.isDigit = true := hcs c (by simp)
    have hrange := isDigit_iff.mp hc
    have hpos : 0 < 10 ^ cs.length * n := by positivity
    have hvalue : 10 ^ (cs ++ [c]).length * n + digitsValue (cs ++ [c]) =
        10 * (10 ^ cs.length * n + digitsValue cs) + (c.toNat - 48) := by
      rw [digitsValue_concat, List.length_append, List.length_singleton, pow_succ]
      ring
    rw [hvalue, ← Nat.toDigits_append_toDigits (by decide) (by omega) (by omega),
      toDigits_of_isDigit hc, ← ih fun c hc => hcs c (List.mem_append_left _ hc), List.append_assoc]

@[simp] theorem digitsValue_toDigits (n : Nat) : digitsValue (Nat.toDigits 10 n) = n :=
  Nat.ofDigitChars_eq_foldl.symm.trans Nat.ofDigitChars_ten_toDigits

theorem head?_toDigits_ne_zero (hn : 0 < n) : (Nat.toDigits 10 n).head? ≠ some '0' := by
  induction n using Nat.strongRecOn with
  | ind n ih =>
    rw [Nat.toDigits_eq_if (by decide)]
    split
    · rw [List.head?_cons, Ne, Option.some.injEq, Nat.digitChar_eq_zero]
      omega
    · rw [List.head?_append_of_ne_nil _ Nat.toDigits_ne_nil]
      exact ih (n / 10) (by omega) (by omega)

theorem isDigits_toDigits (n : Nat) : isDigits (Nat.toDigits 10 n) = true :=
  isDigits_iff.mpr
    ⟨Nat.toDigits_ne_nil, fun _ hc => Nat.isDigit_of_mem_toDigits (by decide) (by decide) hc⟩

theorem isCanonicalWhole_toDigits (n : Nat) : isCanonicalWhole (Nat.toDigits 10 n) = true := by
  rw [isCanonicalWhole, isDigits_toDigits, Bool.true_and, Bool.or_eq_true]
  rcases Nat.eq_zero_or_pos n with rfl | hn
  · left
    decide
  · right
    exact bne_iff_ne.mpr (head?_toDigits_ne_zero hn)

/-- Digits without a redundant leading zero are those of their value. -/
theorem toDigits_digitsValue (h : isCanonicalWhole cs = true) :
    Nat.toDigits 10 (digitsValue cs) = cs := by
  simp only [isCanonicalWhole, Bool.and_eq_true, isDigits_iff, Bool.or_eq_true, beq_iff_eq,
    bne_iff_ne] at h
  obtain ⟨⟨hne, hdigits⟩, hzero⟩ := h
  obtain ⟨c, cs, rfl⟩ := List.exists_cons_of_ne_nil hne
  rw [List.forall_mem_cons] at hdigits
  have hrange := isDigit_iff.mp hdigits.1
  have hfirst := toDigits_of_isDigit hdigits.1
  have hvalue := digitsValue_append [c] cs
  rw [digitsValue_singleton, List.singleton_append] at hvalue
  by_cases hc : c = '0'
  · obtain rfl : cs = [] := by simpa [hc] using hzero
    rw [digitsValue_singleton, hfirst]
  · have hpos : 0 < c.toNat - 48 := by
      have : c.toNat ≠ 48 := fun heq => hc (Char.toNat_inj.mp heq)
      omega
    rw [hvalue, ← toDigits_append hpos hdigits.2, hfirst, List.singleton_append]

end

/-! ### Integers -/

section

variable {s : String} {digits : List Char} {n : Nat}

theorem isCanonicalInteger_minus (hs : s.toList = '-' :: digits) :
    isCanonicalInteger s = true ↔
      ∃ n : Nat, 0 < n ∧ n ≤ 2 ^ 63 ∧ digits = Nat.toDigits 10 n := by
  have hequation : isCanonicalInteger s =
      (isCanonicalWhole digits && digits.head? != some '0' &&
        digitsValue digits ≤ Nat.pow 2 63) := by
    rw [isCanonicalInteger, hs]
    rfl
  rw [hequation, Bool.and_eq_true, Bool.and_eq_true, bne_iff_ne, decide_eq_true_iff]
  constructor
  · rintro ⟨⟨hwhole, hzero⟩, hbound⟩
    refine ⟨digitsValue digits, ?_, hbound, (toDigits_digitsValue hwhole).symm⟩
    apply Nat.pos_of_ne_zero
    intro hvalue
    rw [← toDigits_digitsValue hwhole, hvalue] at hzero
    exact hzero rfl
  · rintro ⟨n, hn, hbound, rfl⟩
    rw [digitsValue_toDigits]
    exact ⟨⟨isCanonicalWhole_toDigits n, head?_toDigits_ne_zero hn⟩, hbound⟩

theorem isCanonicalInteger_plain (hs : s.toList.head? ≠ some '-') :
    isCanonicalInteger s = true ↔ ∃ n : Nat, n < 2 ^ 63 ∧ s.toList = Nat.toDigits 10 n := by
  have hequation : isCanonicalInteger s =
      (isCanonicalWhole s.toList && digitsValue s.toList < Nat.pow 2 63) := by
    rw [isCanonicalInteger]
    split
    · rename_i digits hdigits
      rw [hdigits] at hs
      exact absurd rfl hs
    · rfl
  rw [hequation, Bool.and_eq_true, decide_eq_true_iff]
  constructor
  · rintro ⟨hwhole, hbound⟩
    exact ⟨_, hbound, (toDigits_digitsValue hwhole).symm⟩
  · rintro ⟨n, hbound, hn⟩
    rw [hn, digitsValue_toDigits]
    exact ⟨isCanonicalWhole_toDigits n, hbound⟩

theorem head?_toDigits_ne_minus (n : Nat) : (Nat.toDigits 10 n).head? ≠ some '-' := by
  intro h
  have hdigit : '-'.isDigit = true :=
    Nat.isDigit_of_mem_toDigits (by decide) (by decide) (List.mem_of_head? h)
  exact absurd hdigit (by decide)

theorem toList_toString_ofNat (n : Nat) : (toString (n : Int)).toList = Nat.toDigits 10 n := by
  change n.repr.toList = _
  rw [Nat.repr_eq_ofList_toDigits, String.toList_ofList]

theorem toList_toString_neg {n : Nat} (hn : 0 < n) :
    (toString (-(n : Int))).toList = '-' :: Nat.toDigits 10 n := by
  obtain ⟨n, rfl⟩ := Nat.exists_eq_succ_of_ne_zero (Nat.ne_of_gt hn)
  change ("-" ++ (n + 1).repr).toList = _
  rw [String.toList_append, Nat.repr_eq_ofList_toDigits]
  exact congrArg ('-' :: ·) String.toList_ofList

theorem exists_int64_iff {p : Int → Prop} :
    (∃ n : Int64, p n.toInt) ↔ ∃ z : Int, -2 ^ 63 ≤ z ∧ z < 2 ^ 63 ∧ p z := by
  constructor
  · rintro ⟨n, hn⟩
    exact ⟨n.toInt, n.le_toInt, n.toInt_lt, hn⟩
  · rintro ⟨z, hlow, hhigh, hz⟩
    refine ⟨Int64.ofIntLE z hlow (Int.le_sub_one_of_lt hhigh), ?_⟩
    rw [Int64.toInt_ofIntLE]
    exact hz

/-- The accepted integers are the decimal forms of the 64-bit integers. -/
theorem isCanonicalInteger_iff (s : String) :
    isCanonicalInteger s = true ↔ ∃ n : Int64, s = toString n := by
  refine Iff.trans ?_ (exists_int64_iff (p := fun z => s = toString z)).symm
  by_cases hs : s.toList.head? = some '-'
  · obtain ⟨digits, hdigits⟩ := List.head?_eq_some_iff.mp hs
    rw [isCanonicalInteger_minus hdigits]
    constructor
    · rintro ⟨n, hn, hbound, rfl⟩
      refine ⟨-(n : Int), by omega, by omega, ?_⟩
      apply String.toList_inj.mp
      rw [hdigits, toList_toString_neg hn]
    · rintro ⟨z, hlow, -, rfl⟩
      rcases lt_or_ge z 0 with hz | hz
      · obtain ⟨n, rfl⟩ : ∃ n : Nat, z = -(n : Int) := ⟨z.natAbs, by omega⟩
        rw [toList_toString_neg (by omega)] at hdigits
        exact ⟨n, by omega, by omega, (List.cons.inj hdigits).2.symm⟩
      · obtain ⟨n, rfl⟩ := Int.eq_ofNat_of_zero_le hz
        rw [toList_toString_ofNat] at hs
        exact absurd hs (head?_toDigits_ne_minus n)
  · rw [isCanonicalInteger_plain hs]
    constructor
    · rintro ⟨n, hbound, hn⟩
      refine ⟨n, by omega, by omega, ?_⟩
      apply String.toList_inj.mp
      rw [hn, toList_toString_ofNat]
    · rintro ⟨z, -, hhigh, rfl⟩
      rcases lt_or_ge z 0 with hz | hz
      · obtain ⟨n, rfl⟩ : ∃ n : Nat, z = -(n : Int) := ⟨z.natAbs, by omega⟩
        rw [toList_toString_neg (by omega)] at hs
        exact absurd rfl hs
      · obtain ⟨n, rfl⟩ := Int.eq_ofNat_of_zero_le hz
        exact ⟨n, by omega, toList_toString_ofNat n⟩

end

end Text

end VirtualGraph
