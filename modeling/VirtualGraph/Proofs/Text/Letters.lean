import VirtualGraph.Text.Chars

/-!
# Letters and their case

The character classes as ranges of numbers, and what lowering does to a character: upper-case
letters move by a fixed distance, all others stay.
-/

namespace VirtualGraph.Text

variable {c : Char}

theorem isUpper_iff : c.isUpper = true ↔ 65 ≤ c.toNat ∧ c.toNat ≤ 90 :=
  decide_eq_true_iff.trans (and_congr UInt32.le_iff_toNat_le UInt32.le_iff_toNat_le)

theorem between_iff (low high : UInt32) : (decide (low ≤ c.val) && decide (c.val ≤ high)) = true ↔
    low.toNat ≤ c.toNat ∧ c.toNat ≤ high.toNat := by
  rw [Bool.and_eq_true, decide_eq_true_iff, decide_eq_true_iff, UInt32.le_iff_toNat_le,
    UInt32.le_iff_toNat_le]
  rfl

theorem isLower_iff : c.isLower = true ↔ 97 ≤ c.toNat ∧ c.toNat ≤ 122 :=
  between_iff 97 122

theorem isDigit_iff : c.isDigit = true ↔ 48 ≤ c.toNat ∧ c.toNat ≤ 57 :=
  between_iff 48 57

theorem toLower_of_not_isUpper (h : ¬c.isUpper = true) : c.toLower = c :=
  dif_neg fun hupper => h (decide_eq_true hupper)

theorem toNat_toLower_of_isUpper (h : c.isUpper = true) : c.toLower.toNat = c.toNat + 32 := by
  have hrange := isUpper_iff.mp h
  have hlower : c.toLower.val = c.val + 32 := congrArg Char.val (dif_pos (of_decide_eq_true h))
  show c.toLower.val.toNat = c.val.toNat + 32
  change 65 ≤ c.val.toNat ∧ c.val.toNat ≤ 90 at hrange
  rw [hlower, UInt32.toNat_add]
  change (c.val.toNat + 32) % 4294967296 = _
  omega

@[simp] theorem toLower_toLower (c : Char) : c.toLower.toLower = c.toLower := by
  by_cases h : c.isUpper = true
  · apply toLower_of_not_isUpper
    rw [isUpper_iff, toNat_toLower_of_isUpper h]
    have hrange := isUpper_iff.mp h
    omega
  · rw [toLower_of_not_isUpper h, toLower_of_not_isUpper h]

/-- Lowering gives a character that is no letter only where it stood before. -/
theorem toLower_eq_iff {e : Char} (hupper : ¬e.isUpper = true) (hlower : ¬e.isLower = true) :
    c.toLower = e ↔ c = e := by
  by_cases h : c.isUpper = true
  · have hrange := isUpper_iff.mp h
    have hnat := toNat_toLower_of_isUpper h
    constructor
    · rintro rfl
      exact absurd (isLower_iff.mpr (by omega)) hlower
    · rintro rfl
      exact absurd h hupper
  · rw [toLower_of_not_isUpper h]

theorem toList_lower (s : String) : (lower s).toList = s.toList.map Char.toLower :=
  String.toList_ofList

end VirtualGraph.Text
