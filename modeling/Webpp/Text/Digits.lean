import Mathlib.Data.Char
import Mathlib.Data.List.Basic
import Mathlib.Tactic.IntervalCases

/-!
# Digits

The decimal and hexadecimal digits as the parsers test, read and write them. A
text is a list of characters; all the characters a parser looks for are ASCII.
-/

namespace Webpp.Text

variable {c : Char} {d : ℕ}

/-- What is said of all characters of a text is decided on them, not on all characters. -/
instance decidableForallChar (p : Char → Prop) [DecidablePred p] (l : List Char) :
    Decidable (∀ c ∈ l, p c) := List.decidableBAll p l

/-- `'0' <= c && c <= '9'`. -/
def isDigit (c : Char) : Bool := '0' ≤ c && c ≤ '9'

/-- `c - '0'`. -/
def digitValue (c : Char) : ℕ := c.toNat - '0'.toNat

/-- `static_cast<char>('0' + d)`. -/
def digitChar (d : ℕ) : Char := Char.ofNat ('0'.toNat + d)

/-- The value of a hexadecimal digit of either case, `none` where the source has
the default value -1. -/
def hexDigitSafe (c : Char) : Option ℕ :=
  if '0' ≤ c ∧ c ≤ '9' then some (c.toNat - '0'.toNat)
  else if 'a' ≤ c ∧ c ≤ 'f' then some (c.toNat - 'a'.toNat + 10)
  else if 'A' ≤ c ∧ c ≤ 'F' then some (c.toNat - 'A'.toNat + 10)
  else none

/-- The table of lowercase hexadecimal digits. -/
def hexChars (d : ℕ) : Char := "0123456789abcdef".toList.getD d '\x00'

/-- A hexadecimal digit of either case. -/
def isHexDigit (c : Char) : Bool := (hexDigitSafe c).isSome

/-! ## Decimal digits -/

theorem isDigit_digitChar (h : d < 10) : isDigit (digitChar d) = true := by
  interval_cases d <;> rfl

theorem digitValue_digitChar (h : d < 10) : digitValue (digitChar d) = d := by
  interval_cases d <;> rfl

theorem isDigit_iff (c : Char) : isDigit c = true ↔ 48 ≤ c.toNat ∧ c.toNat ≤ 57 := by
  rw [isDigit, Bool.and_eq_true, decide_eq_true_iff, decide_eq_true_iff, Char.le_def,
    Char.le_def, UInt32.le_iff_toNat_le, UInt32.le_iff_toNat_le]
  rfl

theorem digitValue_lt (h : isDigit c = true) : digitValue c < 10 := by
  have hc := (isDigit_iff c).mp h
  have h0 : '0'.toNat = 48 := rfl
  rw [digitValue, h0]
  omega

theorem digitChar_digitValue (h : isDigit c = true) :
    digitChar (digitValue c) = c := by
  have hc := (isDigit_iff c).mp h
  have h0 : '0'.toNat = 48 := rfl
  rw [digitChar, digitValue, h0, show 48 + (c.toNat - 48) = c.toNat by omega,
    Char.ofNat_toNat]

/-! ## Hexadecimal digits -/

theorem hexDigitSafe_hexChars (h : d < 16) : hexDigitSafe (hexChars d) = some d := by
  interval_cases d <;> rfl

theorem isHexDigit_hexChars (h : d < 16) : isHexDigit (hexChars d) = true := by
  rw [isHexDigit, hexDigitSafe_hexChars h, Option.isSome_some]

theorem hexDigitSafe_lt (h : hexDigitSafe c = some d) : d < 16 := by
  have h0 : '0'.toNat = 48 := rfl
  have h9 : '9'.val.toNat = 57 := rfl
  have ha : 'a'.toNat = 97 := rfl
  have hf : 'f'.val.toNat = 102 := rfl
  have hA : 'A'.toNat = 65 := rfl
  have hF : 'F'.val.toNat = 70 := rfl
  have hc : c.val.toNat = c.toNat := rfl
  simp only [hexDigitSafe, Char.le_def, UInt32.le_iff_toNat_le] at h
  split_ifs at h <;> simp only [Option.some.injEq] at h <;> omega

theorem isHexDigit_of_isDigit (h : isDigit c = true) : isHexDigit c = true := by
  rw [isDigit, Bool.and_eq_true, decide_eq_true_iff, decide_eq_true_iff] at h
  rw [isHexDigit, hexDigitSafe, if_pos h, Option.isSome_some]

theorem exists_hexDigitSafe (h : isHexDigit c = true) :
    ∃ d, hexDigitSafe c = some d := Option.isSome_iff_exists.mp h

theorem hexDigitSafe_eq_none (h : isHexDigit c = false) :
    hexDigitSafe c = none := by
  rw [isHexDigit, Option.isSome_eq_false_iff, Option.isNone_iff_eq_none] at h
  exact h

end Webpp.Text
