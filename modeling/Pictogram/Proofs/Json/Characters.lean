import Pictogram.Json.Skip
import Pictogram.Proofs.Json.Format

/-! # Characters of the format

The reader tells blanks, digits and escapes by functions of its own. Each of them is what the format says, and the two
numbers that form a character are those that the character is written with.
-/
namespace Pictogram.Json
set_option autoImplicit false
open Format

theorem isBlank_iff (c : Char) : isBlank c = true ↔ Blank c := by
  simp [isBlank, Blank, or_assoc]

theorem shortEscape?_eq_some_iff (letter c : Char) :
    shortEscape? letter = some c ↔ (letter, c) ∈ shortEscapes := by
  constructor
  · intro h
    unfold shortEscape? at h
    split at h <;> cases h <;> decide
  · intro h
    simp only [shortEscapes, List.mem_cons, Prod.mk.injEq, List.not_mem_nil, or_false] at h
    obtain ⟨rfl, rfl⟩ | ⟨rfl, rfl⟩ | ⟨rfl, rfl⟩ | ⟨rfl, rfl⟩ | ⟨rfl, rfl⟩ | ⟨rfl, rfl⟩ |
      ⟨rfl, rfl⟩ | ⟨rfl, rfl⟩ := h <;> rfl

/-- The letter of a numbered escape is none of a short one. -/
theorem ne_of_mem_shortEscapes {letter c : Char} (h : (letter, c) ∈ shortEscapes) : letter ≠ 'u' := by
  rintro rfl
  cases (shortEscape?_eq_some_iff 'u' c).mpr h

/-! ## Hexadecimal digits -/

theorem toNat_lt_of_value? {c : Char} {n : Nat} (h : Text.Hex.value? c = some n) : c.toNat < 128 := by
  have hLess {last : Char} (hLast : c ≤ last) (hBound : last.toNat < 128) : c.toNat < 128 :=
    Nat.lt_of_le_of_lt (UInt32.le_iff_toNat_le.mp hLast) hBound
  unfold Text.Hex.value? at h
  split at h
  · rename_i hDigit
    exact hLess hDigit.2 (by decide)
  split at h
  · rename_i hLower
    exact hLess hLower.2 (by decide)
  split at h
  · rename_i hUpper
    exact hLess hUpper.2 (by decide)
  · cases h

theorem value?_eq_some_iff (c : Char) (n : Nat) : Text.Hex.value? c = some n ↔ HexDigit c n := by
  constructor
  · intro h
    have hAll : ∀ k < 128, ∀ n ∈ Text.Hex.value? (Char.ofNat k), HexDigit (Char.ofNat k) n := by
      decide
    have hDigit := hAll c.toNat (toNat_lt_of_value? h)
    rw [Char.ofNat_toNat] at hDigit
    exact hDigit n h
  · have hLower : ∀ n < 16, "0123456789abcdef".toList[n]?.bind Text.Hex.value? = some n := by
      decide
    have hUpper : ∀ n < 16, "0123456789ABCDEF".toList[n]?.bind Text.Hex.value? = some n := by
      decide
    rintro (h | h)
    · have hValue := hLower n (List.getElem?_eq_some_iff.mp h).1
      rwa [h] at hValue
    · have hValue := hUpper n (List.getElem?_eq_some_iff.mp h).1
      rwa [h] at hValue

theorem utf8Size_of_hexDigit {c : Char} {n : Nat} (h : HexDigit c n) : c.utf8Size = 1 := by
  have hSmall := toNat_lt_of_value? ((value?_eq_some_iff c n).mpr h)
  rw [Char.utf8Size_eq_one_iff, UInt32.le_iff_toNat_le]
  exact Nat.le_of_lt_succ hSmall

theorem hexDigit_lt {c : Char} {n : Nat} (h : HexDigit c n) : n < 16 := by
  cases h with
  | inl h => exact (List.getElem?_eq_some_iff.mp h).1
  | inr h => exact (List.getElem?_eq_some_iff.mp h).1

theorem unitText_iff (digits : List Char) (n : Nat) :
    UnitText digits n ↔ ∃ a b c d va vb vc vd, digits = [a, b, c, d] ∧ HexDigit a va ∧ HexDigit b vb ∧
      HexDigit c vc ∧ HexDigit d vd ∧ n = (va * 16 + vb) * 256 + (vc * 16 + vd) := by
  constructor
  · rintro ⟨values, hDigits, hLength, rfl⟩
    match values, hLength with
    | [va, vb, vc, vd], _ =>
      obtain _ | ⟨hA, _ | ⟨hB, _ | ⟨hC, _ | ⟨hD, ⟨⟩⟩⟩⟩⟩ := hDigits
      refine ⟨_, _, _, _, va, vb, vc, vd, rfl, hA, hB, hC, hD, ?_⟩
      simp [Nat.ofDigits_cons]
      omega
  · rintro ⟨a, b, c, d, va, vb, vc, vd, rfl, hA, hB, hC, hD, rfl⟩
    refine ⟨[va, vb, vc, vd], .cons hA (.cons hB (.cons hC (.cons hD .nil))), rfl, ?_⟩
    simp [Nat.ofDigits_cons]
    omega

theorem unitText_lt {digits : List Char} {n : Nat} (h : UnitText digits n) : n < 0x10000 := by
  obtain ⟨a, b, c, d, va, vb, vc, vd, -, hA, hB, hC, hD, rfl⟩ := (unitText_iff digits n).mp h
  have ha := hexDigit_lt hA
  have hb := hexDigit_lt hB
  have hc := hexDigit_lt hC
  have hd := hexDigit_lt hD
  omega

theorem unit?_eq_some_iff (digits : List Char) (n : Nat) :
    Text.Hex.unit? digits = some n ↔ UnitText digits n := by
  rw [unitText_iff]
  constructor
  · intro h
    match digits, h with
    | [a, b, c, d], h =>
      simp only [Text.Hex.unit?, Option.bind_eq_bind, Option.bind_eq_some_iff, value?_eq_some_iff] at h
      obtain ⟨va, hA, vb, hB, vc, hC, vd, hD, hN⟩ := h
      exact ⟨a, b, c, d, va, vb, vc, vd, rfl, hA, hB, hC, hD, (Option.some.inj hN).symm⟩
  · rintro ⟨a, b, c, d, va, vb, vc, vd, rfl, hA, hB, hC, hD, rfl⟩
    rw [← value?_eq_some_iff] at hA hB hC hD
    simp [Text.Hex.unit?, hA, hB, hC, hD]

/-! ## Numbers of characters -/

theorem toNat_ofNat_of_valid {n : Nat} (h : n.isValidChar) : (Char.ofNat n).toNat = n := by
  rw [Char.ofNat, dif_pos h]
  rfl

theorem not_half (c : Char) : isLeading c.toNat = false ∧ isTrailing c.toNat = false := by
  have hValid : c.toNat < 0xD800 ∨ 0xDFFF < c.toNat ∧ c.toNat < 0x110000 := c.valid
  simp only [isLeading, isTrailing, Bool.and_eq_false_iff, decide_eq_false_iff_not]
  omega

theorem isTrailing_of_leading {n : Nat} (h : isLeading n = true) : isTrailing n = false := by
  simp only [isLeading, isTrailing, Bool.and_eq_true, Bool.and_eq_false_iff, decide_eq_true_eq,
    decide_eq_false_iff_not] at h ⊢
  omega

/-- A number of four digits that is neither half of one is the number of a character. -/
theorem toNat_ofNat_of_not_half {n : Nat} (h : n < 0x10000) (hLeading : isLeading n = false)
    (hTrailing : isTrailing n = false) : (Char.ofNat n).toNat = n := by
  simp only [isLeading, isTrailing, Bool.and_eq_false_iff, decide_eq_false_iff_not] at hLeading hTrailing
  apply toNat_ofNat_of_valid
  rw [Nat.isValidChar]
  omega

/-- The halves of a number that needs more than four digits. -/
theorem halves_joined {m n : Nat} (hLeading : isLeading m = true) (hTrailing : isTrailing n = true) :
    0x10000 ≤ (joined m n).toNat ∧ 0xD800 + ((joined m n).toNat - 0x10000) / 0x400 = m ∧
      0xDC00 + ((joined m n).toNat - 0x10000) % 0x400 = n := by
  simp only [isLeading, isTrailing, Bool.and_eq_true, decide_eq_true_eq] at hLeading hTrailing
  have hValid : (0x10000 + (m - 0xD800) * 0x400 + (n - 0xDC00)).isValidChar := by
    rw [Nat.isValidChar]
    omega
  rw [joined, toNat_ofNat_of_valid hValid]
  omega

theorem joined_halves {c : Char} (h : 0x10000 ≤ c.toNat) :
    isLeading (0xD800 + (c.toNat - 0x10000) / 0x400) = true ∧
      isTrailing (0xDC00 + (c.toNat - 0x10000) % 0x400) = true ∧
        joined (0xD800 + (c.toNat - 0x10000) / 0x400) (0xDC00 + (c.toNat - 0x10000) % 0x400) = c := by
  have hValid : c.toNat < 0xD800 ∨ 0xDFFF < c.toNat ∧ c.toNat < 0x110000 := c.valid
  refine ⟨?_, ?_, ?_⟩
  · simp only [isLeading, Bool.and_eq_true, decide_eq_true_eq]
    omega
  · simp only [isTrailing, Bool.and_eq_true, decide_eq_true_eq]
    omega
  · have hNumber : 0x10000 + (0xD800 + (c.toNat - 0x10000) / 0x400 - 0xD800) * 0x400 +
        (0xDC00 + (c.toNat - 0x10000) % 0x400 - 0xDC00) = c.toNat := by
      omega
    rw [joined, hNumber, Char.ofNat_toNat]

end Pictogram.Json
