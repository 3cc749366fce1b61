import Mathlib
import Stylesheet.Text

/-! The classes of characters as ranges of code points, and how they lie to each other. -/
namespace Stylesheet

theorem isAlpha_iff (c : Char) : c.isAlpha = true ↔
    65 ≤ c.toNat ∧ c.toNat ≤ 90 ∨ 97 ≤ c.toNat ∧ c.toNat ≤ 122 := by
  simp only [Char.isAlpha, Char.isUpper, Char.isLower, Bool.or_eq_true, Bool.and_eq_true,
    decide_eq_true_eq]
  exact Iff.rfl

theorem isDigit_iff (c : Char) : c.isDigit = true ↔ 48 ≤ c.toNat ∧ c.toNat ≤ 57 := by
  simp only [Char.isDigit, Bool.and_eq_true, decide_eq_true_eq]
  exact Iff.rfl

theorem isHexDigit_iff (c : Char) : isHexDigit c = true ↔ (48 ≤ c.toNat ∧ c.toNat ≤ 57) ∨
    (97 ≤ c.toNat ∧ c.toNat ≤ 102) ∨ (65 ≤ c.toNat ∧ c.toNat ≤ 70) := by
  simp only [isHexDigit, Bool.or_eq_true, Bool.and_eq_true, decide_eq_true_eq, or_assoc, isDigit_iff]
  exact Iff.rfl

theorem isNameStart_iff (c : Char) : isNameStart c = true ↔
    (65 ≤ c.toNat ∧ c.toNat ≤ 90 ∨ 97 ≤ c.toNat ∧ c.toNat ≤ 122) ∨ c = '_' ∨ 128 ≤ c.toNat := by
  simp only [isNameStart, Bool.or_eq_true, beq_iff_eq, decide_eq_true_eq, isAlpha_iff, or_assoc]

theorem isBlank_iff (c : Char) :
    isBlank c = true ↔ c = ' ' ∨ c = '\t' ∨ c = '\n' ∨ c = '\r' ∨ c = '\x0c' := by
  simp only [isBlank, isNewline, Bool.or_eq_true, beq_iff_eq, or_assoc]

theorem not_isHexDigit_of_isBlank {c : Char} (h : isBlank c) : isHexDigit c = false := by
  rcases (isBlank_iff c).mp h with rfl | rfl | rfl | rfl | rfl <;> rfl

theorem not_isDigit_of_isNameStart {c : Char} (h : isNameStart c) : c.isDigit = false := by
  rw [Bool.eq_false_iff, ne_eq, isDigit_iff]
  rcases (isNameStart_iff c).mp h with h | rfl | h
  · omega
  · decide
  · omega

theorem isNameChar_of_isNameStart {c : Char} (h : isNameStart c) : isNameChar c := by
  simp [isNameChar, h]

theorem isBlank_of_isNewline {c : Char} (h : isNewline c) : isBlank c := by
  simp [isBlank, h]

theorem not_isBlank_of_isNameStart {c : Char} (h : isNameStart c) : isBlank c = false := by
  refine Bool.eq_false_iff.mpr fun hb => ?_
  rcases (isBlank_iff c).mp hb with rfl | rfl | rfl | rfl | rfl <;> exact absurd h (by decide)

theorem isQuote_iff (c : Char) : isQuote c = true ↔ c = '"' ∨ c = '\'' := by
  simp only [isQuote, Bool.or_eq_true, beq_iff_eq]

theorem not_isQuote_of_isNameStart {c : Char} (h : isNameStart c) : isQuote c = false := by
  refine Bool.eq_false_iff.mpr fun hq => ?_
  rcases (isQuote_iff c).mp hq with rfl | rfl <;> exact absurd h (by decide)

theorem not_isBlank_of_isQuote {c : Char} (h : isQuote c) : isBlank c = false := by
  rcases (isQuote_iff c).mp h with rfl | rfl <;> rfl

/-! What is one character is none of another class. -/

theorem ne_backslash_of_isHexDigit {c : Char} (h : isHexDigit c) : c ≠ '\\' := by
  rintro rfl
  exact absurd h (by decide)

theorem ne_backslash_of_isBlank {c : Char} (h : isBlank c) : c ≠ '\\' := by
  rintro rfl
  exact absurd h (by decide)

theorem ne_backslash_of_isQuote {c : Char} (h : isQuote c) : c ≠ '\\' := by
  rintro rfl
  exact absurd h (by decide)

end Stylesheet
