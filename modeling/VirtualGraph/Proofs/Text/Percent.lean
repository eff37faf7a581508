import VirtualGraph.Proofs.Bound.Solutions

/-!
# Texts that percent-encoding leaves alone

Reading the UTF-8 form of a text gives the text back, so decoding leaves every text alone that has
no percent sign, and encoding every text of unreserved characters.
-/

namespace VirtualGraph.Text

variable {owed low high bits b : Nat} {rest : List Nat}

/-! ### UTF-8 -/

theorem decodeUtf8From_leading (hb : 0x80 ≤ b) (h : leadingByte? b = some (owed, low, high)) :
    decodeUtf8From .between (b :: rest) =
      decodeUtf8From (.inside owed low high (leadingBits owed b)) rest := by
  rw [decodeUtf8From, startChar, if_neg (Nat.not_lt.mpr hb), h]
  rfl

theorem decodeUtf8From_last (hlow : low ≤ b) (hhigh : b ≤ high) :
    decodeUtf8From (.inside 1 low high bits) (b :: rest) =
      Char.ofNat (bits * 0x40 + (b - 0x80)) :: decodeUtf8From .between rest := by
  rw [decodeUtf8From, if_pos (by simp [hlow, hhigh])]
  rfl

theorem decodeUtf8From_next (hlow : low ≤ b) (hhigh : b ≤ high) :
    decodeUtf8From (.inside (owed + 2) low high bits) (b :: rest) =
      decodeUtf8From (.inside (owed + 1) 0x80 0xBF (bits * 0x40 + (b - 0x80))) rest := by
  rw [decodeUtf8From, if_pos (by simp [hlow, hhigh])]
  dsimp only
  rw [if_neg (by omega)]
  rfl

/-- The first continuation byte of three rules out short forms and surrogates. -/
theorem leadingByte?_of_three {k : Nat} (h : k < 0x10) : leadingByte? (0xE0 + k) =
    some (2, if k = 0 then 0xA0 else 0x80, if k = 0xD then 0x9F else 0xBF) :=
  (by decide : ∀ k < 0x10, leadingByte? (0xE0 + k) =
    some (2, if k = 0 then 0xA0 else 0x80, if k = 0xD then 0x9F else 0xBF)) k h

/-- The first continuation byte of four rules out short forms and numbers too large. -/
theorem leadingByte?_of_four {k : Nat} (h : k < 5) : leadingByte? (0xF0 + k) =
    some (3, if k = 0 then 0x90 else 0x80, if k = 4 then 0x8F else 0xBF) :=
  (by decide : ∀ k < 5, leadingByte? (0xF0 + k) =
    some (3, if k = 0 then 0x90 else 0x80, if k = 4 then 0x8F else 0xBF)) k h

/-- A character is not in the range of surrogates. -/
theorem toNat_bounds (c : Char) : c.toNat < 0xD800 ∨ 0xDFFF < c.toNat ∧ c.toNat < 0x110000 :=
  c.valid

/-- The bytes of a character are read as the character. -/
theorem decodeUtf8From_utf8Bytes (c : Char) (rest : List Nat) :
    decodeUtf8From .between (utf8Bytes c ++ rest) = c :: decodeUtf8From .between rest := by
  have hc : Char.ofNat c.toNat = c := Char.ofNat_toNat c
  have hbounds := toNat_bounds c
  unfold utf8Bytes
  generalize c.toNat = n at hc hbounds ⊢
  dsimp only
  by_cases h1 : n < 0x80
  · rw [if_pos h1, List.singleton_append, decodeUtf8From, startChar, if_pos h1, hc]
    rfl
  by_cases h2 : n < 0x800
  · have hlead : leadingByte? (0xC0 + n / 0x40) = some (1, 0x80, 0xBF) := by
      grind [leadingByte?]
    have hbits : leadingBits 1 (0xC0 + n / 0x40) * 0x40 + (0x80 + n % 0x40 - 0x80) = n := by
      show (0xC0 + n / 0x40) % 0x20 * 0x40 + (0x80 + n % 0x40 - 0x80) = n
      omega
    rw [if_neg h1, if_pos h2]
    show decodeUtf8From .between (_ :: _ :: rest) = _
    rw [decodeUtf8From_leading (by omega) hlead, decodeUtf8From_last (by omega) (by omega), hbits,
      hc]
  by_cases h3 : n < 0x10000
  · have hlead := leadingByte?_of_three (k := n / 0x1000) (by omega)
    have hlow : (if n / 0x1000 = 0 then 0xA0 else 0x80) ≤ 0x80 + n / 0x40 % 0x40 := by
      split <;> omega
    have hhigh : 0x80 + n / 0x40 % 0x40 ≤ if n / 0x1000 = 0xD then 0x9F else 0xBF := by
      split <;> omega
    have hbits : (leadingBits 2 (0xE0 + n / 0x1000) * 0x40 + (0x80 + n / 0x40 % 0x40 - 0x80)) *
        0x40 + (0x80 + n % 0x40 - 0x80) = n := by
      show ((0xE0 + n / 0x1000) % 0x10 * 0x40 + (0x80 + n / 0x40 % 0x40 - 0x80)) * 0x40 +
        (0x80 + n % 0x40 - 0x80) = n
      omega
    rw [if_neg h1, if_neg h2, if_pos h3]
    show decodeUtf8From .between (_ :: _ :: _ :: rest) = _
    rw [decodeUtf8From_leading (by omega) hlead, decodeUtf8From_next hlow hhigh,
      decodeUtf8From_last (by omega) (by omega), hbits, hc]
  · have hlead := leadingByte?_of_four (k := n / 0x40000) (by omega)
    have hlow : (if n / 0x40000 = 0 then 0x90 else 0x80) ≤ 0x80 + n / 0x1000 % 0x40 := by
      split <;> omega
    have hhigh : 0x80 + n / 0x1000 % 0x40 ≤ if n / 0x40000 = 4 then 0x8F else 0xBF := by
      split <;> omega
    have hbits : ((leadingBits 3 (0xF0 + n / 0x40000) * 0x40 +
        (0x80 + n / 0x1000 % 0x40 - 0x80)) * 0x40 + (0x80 + n / 0x40 % 0x40 - 0x80)) * 0x40 +
        (0x80 + n % 0x40 - 0x80) = n := by
      show (((0xF0 + n / 0x40000) % 0x08 * 0x40 +
        (0x80 + n / 0x1000 % 0x40 - 0x80)) * 0x40 + (0x80 + n / 0x40 % 0x40 - 0x80)) * 0x40 +
        (0x80 + n % 0x40 - 0x80) = n
      omega
    rw [if_neg h1, if_neg h2, if_neg h3]
    show decodeUtf8From .between (_ :: _ :: _ :: _ :: rest) = _
    rw [decodeUtf8From_leading (by omega) hlead, decodeUtf8From_next hlow hhigh,
      decodeUtf8From_next (by omega) (by omega), decodeUtf8From_last (by omega) (by omega),
      hbits, hc]

theorem decodeUtf8From_flatMap (cs : List Char) :
    decodeUtf8From .between (cs.flatMap utf8Bytes) = cs := by
  induction cs with
  | nil => rfl
  | cons c cs ih => rw [List.flatMap_cons, decodeUtf8From_utf8Bytes, ih]

/-! ### Percent-encoding -/

theorem percentBytes_of_not_mem {cs : List Char} (h : '%' ∉ cs) :
    percentBytes cs = cs.flatMap utf8Bytes := by
  induction cs with
  | nil => rfl
  | cons c cs ih =>
    rw [List.mem_cons, not_or] at h
    rw [percentBytes, List.flatMap_cons, ih h.2]
    exact fun _ _ _ hc => absurd hc.symm h.1

/-- A text without a percent sign stands for itself. -/
theorem percentDecode_eq_self {s : String} (h : '%' ∉ s.toList) : percentDecode s = s := by
  rw [percentDecode, percentBytes_of_not_mem h, decodeUtf8From_flatMap, String.ofList_toList]

/-- A text of unreserved characters is encoded as itself. -/
theorem percentEncode_eq_self {s : String} (h : ∀ c ∈ s.toList, isUnreserved c = true) :
    percentEncode s = s := by
  have hsame : s.toList.flatMap (fun c => if isUnreserved c then [c] else percentEscape c) =
      s.toList.flatMap fun c => [c] :=
    List.flatMap_congr fun c hc => if_pos (h c hc)
  rw [percentEncode, hsame, List.flatMap_singleton', String.ofList_toList]

end VirtualGraph.Text
