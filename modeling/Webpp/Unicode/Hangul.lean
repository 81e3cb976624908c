import Mathlib.Data.Nat.Basic
import Mathlib.Tactic.Linarith

/-!
# Hangul

A syllable is composed of a leading consonant and a vowel, or of a syllable without a trailing
consonant and one. The base of the trailing consonants is none itself, but it is taken for one.
-/

namespace Webpp.Unicode

def hangulSyllableBase : ℕ := 0xAC00
def hangulLeadingBase : ℕ := 0x1100
def hangulVowelBase : ℕ := 0x1161
def hangulTrailingBase : ℕ := 0x11A7
def hangulLeadingCount : ℕ := 19
def hangulVowelCount : ℕ := 21
def hangulTrailingCount : ℕ := 28
def hangulBlockCount : ℕ := hangulVowelCount * hangulTrailingCount
def hangulSyllableCount : ℕ := hangulLeadingCount * hangulBlockCount

def isHangulCodePoint (c : ℕ) : Bool :=
  hangulSyllableBase ≤ c && c < hangulSyllableBase + hangulSyllableCount

def isHangulLeading (c : ℕ) : Bool :=
  hangulLeadingBase ≤ c && c < hangulLeadingBase + hangulLeadingCount

def isHangulTrailing (c : ℕ) : Bool :=
  hangulTrailingBase ≤ c && c < hangulTrailingBase + hangulTrailingCount

def isHangulVowel (c : ℕ) : Bool := hangulVowelBase ≤ c && c < hangulVowelBase + hangulVowelCount

/-- `compose_hangul`, which is 0 if there is no composition. -/
def composeHangul (lhs rhs : ℕ) : ℕ :=
  if isHangulLeading lhs && isHangulVowel rhs then
    hangulSyllableBase + ((lhs - hangulLeadingBase) * hangulBlockCount +
      (rhs - hangulVowelBase) * hangulTrailingCount)
  else if isHangulCodePoint lhs && (lhs - hangulSyllableBase) % hangulTrailingCount == 0 &&
      isHangulTrailing rhs then
    lhs + rhs - hangulTrailingBase
  else 0

/-- `decomposed_hangul_code_point` -/
structure DecomposedHangul where
  leading : ℕ
  vowel : ℕ
  trailing : ℕ
  deriving DecidableEq

/-- `decomposed_hangul`, where the base of the trailing consonants stands for none. -/
def decomposedHangul (c : ℕ) : DecomposedHangul :=
  let pos := c - hangulSyllableBase
  { leading := hangulLeadingBase + pos / hangulBlockCount
    vowel := hangulVowelBase + pos % hangulBlockCount / hangulTrailingCount
    trailing :=
      if pos % hangulTrailingCount ≠ 0 then hangulTrailingBase + pos % hangulTrailingCount
      else hangulTrailingBase }

/-- The canonical decomposition of a syllable into two code points: the trailing consonant is
split from the syllable without it, and such a syllable is split into consonant and vowel. -/
def HangulComposite (c lhs rhs : ℕ) : Prop :=
  isHangulCodePoint c ∧
    if (decomposedHangul c).trailing = hangulTrailingBase then
      lhs = (decomposedHangul c).leading ∧ rhs = (decomposedHangul c).vowel
    else
      isHangulCodePoint lhs ∧ (decomposedHangul lhs).leading = (decomposedHangul c).leading ∧
        (decomposedHangul lhs).vowel = (decomposedHangul c).vowel ∧
        (decomposedHangul lhs).trailing = hangulTrailingBase ∧
        rhs = (decomposedHangul c).trailing

/-! ## In arithmetic -/

theorem isHangulCodePoint_iff (c : ℕ) : isHangulCodePoint c = true ↔ 44032 ≤ c ∧ c < 55204 := by
  rw [isHangulCodePoint, Bool.and_eq_true, decide_eq_true_eq, decide_eq_true_eq]
  rfl

theorem isHangulLeading_iff (c : ℕ) : isHangulLeading c = true ↔ 4352 ≤ c ∧ c < 4371 := by
  rw [isHangulLeading, Bool.and_eq_true, decide_eq_true_eq, decide_eq_true_eq]
  rfl

theorem isHangulTrailing_iff (c : ℕ) : isHangulTrailing c = true ↔ 4519 ≤ c ∧ c < 4547 := by
  rw [isHangulTrailing, Bool.and_eq_true, decide_eq_true_eq, decide_eq_true_eq]
  rfl

theorem isHangulVowel_iff (c : ℕ) : isHangulVowel c = true ↔ 4449 ≤ c ∧ c < 4470 := by
  rw [isHangulVowel, Bool.and_eq_true, decide_eq_true_eq, decide_eq_true_eq]
  rfl

theorem decomposedHangul_eq (c : ℕ) :
    decomposedHangul c =
      { leading := 4352 + (c - 44032) / 588
        vowel := 4449 + (c - 44032) % 588 / 28
        trailing := 4519 + (c - 44032) % 28 } := by
  have htrailing : (if (c - 44032) % 28 ≠ 0 then 4519 + (c - 44032) % 28 else 4519) =
      4519 + (c - 44032) % 28 := by
    split_ifs with h
    · rfl
    · rw [not_not.1 h]
  rw [← htrailing]
  rfl

/-- A syllable without a trailing consonant. -/
def isLeadingVowel (c : ℕ) : Bool :=
  isHangulCodePoint c && (c - hangulSyllableBase) % hangulTrailingCount == 0

theorem isLeadingVowel_iff (c : ℕ) :
    isLeadingVowel c = true ↔ 44032 ≤ c ∧ c < 55204 ∧ (c - 44032) % 28 = 0 := by
  rw [isLeadingVowel, Bool.and_eq_true, isHangulCodePoint_iff, beq_iff_eq, and_assoc]
  rfl

theorem hangulComposite_iff (c lhs rhs : ℕ) :
    HangulComposite c lhs rhs ↔
      44032 ≤ c ∧ c < 55204 ∧
        (if (c - 44032) % 28 = 0 then
          lhs = 4352 + (c - 44032) / 588 ∧ rhs = 4449 + (c - 44032) % 588 / 28
        else lhs = c - (c - 44032) % 28 ∧ rhs = 4519 + (c - 44032) % 28) := by
  rw [HangulComposite, isHangulCodePoint_iff, isHangulCodePoint_iff, decomposedHangul_eq,
    decomposedHangul_eq, hangulTrailingBase, and_assoc]
  dsimp only
  by_cases h : (c - 44032) % 28 = 0
  · rw [if_pos h, if_pos (by omega)]
  · rw [if_neg h, if_neg (by omega)]
    refine and_congr_right fun h₁ => and_congr_right fun h₂ => ?_
    constructor
    · rintro ⟨⟨h₃, h₄⟩, h₅, h₆, h₇, h₈⟩
      omega
    · rintro ⟨h₃, h₄⟩
      omega

theorem composeHangul_eq (lhs rhs : ℕ) :
    composeHangul lhs rhs =
      if (4352 ≤ lhs ∧ lhs < 4371) ∧ 4449 ≤ rhs ∧ rhs < 4470 then
        44032 + ((lhs - 4352) * 588 + (rhs - 4449) * 28)
      else if (44032 ≤ lhs ∧ lhs < 55204 ∧ (lhs - 44032) % 28 = 0) ∧ 4519 ≤ rhs ∧ rhs < 4547 then
        lhs + rhs - 4519
      else 0 := by
  have hfirst : (isHangulLeading lhs && isHangulVowel rhs) = true ↔
      (4352 ≤ lhs ∧ lhs < 4371) ∧ 4449 ≤ rhs ∧ rhs < 4470 := by
    rw [Bool.and_eq_true, isHangulLeading_iff, isHangulVowel_iff]
  have hsecond : (isHangulCodePoint lhs && (lhs - hangulSyllableBase) % hangulTrailingCount == 0 &&
      isHangulTrailing rhs) = true ↔
      (44032 ≤ lhs ∧ lhs < 55204 ∧ (lhs - 44032) % 28 = 0) ∧ 4519 ≤ rhs ∧ rhs < 4547 := by
    rw [Bool.and_eq_true, isHangulTrailing_iff, ← isLeadingVowel_iff]
    rfl
  rw [composeHangul]
  by_cases h₁ : (4352 ≤ lhs ∧ lhs < 4371) ∧ 4449 ≤ rhs ∧ rhs < 4470
  · rw [if_pos (hfirst.2 h₁), if_pos h₁]
    rfl
  · rw [if_neg (hfirst.not.2 h₁), if_neg h₁]
    by_cases h₂ : (44032 ≤ lhs ∧ lhs < 55204 ∧ (lhs - 44032) % 28 = 0) ∧ 4519 ≤ rhs ∧ rhs < 4547
    · rw [if_pos (hsecond.2 h₂), if_pos h₂]
      rfl
    · rw [if_neg (hsecond.not.2 h₂), if_neg h₂]

end Webpp.Unicode
