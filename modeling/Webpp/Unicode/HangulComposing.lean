import Webpp.Unicode.CanonicalDecompose

/-!
# Composing what a syllable is decomposed into

A pair of code points is composed to the syllable whose full decomposition is the one of the first
followed by the second. The base of the trailing consonants, which is in no decomposition, is the
exception: a syllable takes it without a trace.
-/

namespace Webpp.Unicode

open UnitCode

/-- The code points that `decompose_hangul` appends. -/
def hangulParts (c : ℕ) : List ℕ :=
  let parts := decomposedHangul c
  if parts.trailing ≠ hangulTrailingBase then [parts.leading, parts.vowel, parts.trailing]
  else [parts.leading, parts.vowel]

/-- The full decomposition, which is the code point itself if it is no syllable. -/
def fullDecomposition (c : ℕ) : List ℕ := if isHangulCodePoint c then hangulParts c else [c]

/-- The code points are composed one after the other. -/
def composeParts : List ℕ → ℕ
  | [] => 0
  | c :: cs => cs.foldl composeHangul c

/-- A pair is composed to a syllable if and only if the pair decomposes as the syllable does. -/
def ComposesDecomposition (lhs rhs : ℕ) : Prop :=
  ∀ s, (composeHangul lhs rhs = s ∧ s ≠ 0) ↔
    isHangulCodePoint s ∧ fullDecomposition s = fullDecomposition lhs ++ [rhs]

section Parts

variable {c : ℕ}

theorem hangulParts_of_trailing (h : (c - 44032) % 28 ≠ 0) :
    hangulParts c =
      [4352 + (c - 44032) / 588, 4449 + (c - 44032) % 588 / 28, 4519 + (c - 44032) % 28] := by
  rw [hangulParts, decomposedHangul_eq, hangulTrailingBase]
  exact if_pos (by dsimp only; omega)

theorem hangulParts_of_leadingVowel (h : (c - 44032) % 28 = 0) :
    hangulParts c = [4352 + (c - 44032) / 588, 4449 + (c - 44032) % 588 / 28] := by
  rw [hangulParts, decomposedHangul_eq, hangulTrailingBase]
  exact if_neg (by dsimp only; omega)

theorem fullDecomposition_of_hangul (h : isHangulCodePoint c = true) :
    fullDecomposition c = hangulParts c := if_pos h

theorem fullDecomposition_of_not_hangul (h : isHangulCodePoint c = false) :
    fullDecomposition c = [c] := by
  rw [fullDecomposition, h, if_neg Bool.false_ne_true]

theorem two_le_length_hangulParts (c : ℕ) : 2 ≤ (hangulParts c).length := by
  by_cases h : (c - 44032) % 28 = 0
  · rw [hangulParts_of_leadingVowel h]
    rfl
  · rw [hangulParts_of_trailing h]
    exact Nat.le_succ 2

/-- The full decompositions that are one code point more than another one are those of the
canonical decompositions into two. -/
theorem fullDecomposition_eq_iff (s lhs rhs : ℕ) :
    isHangulCodePoint s ∧ fullDecomposition s = fullDecomposition lhs ++ [rhs] ↔
      HangulComposite s lhs rhs := by
  rw [hangulComposite_iff, ← and_assoc, ← isHangulCodePoint_iff]
  refine and_congr_right fun hs => ?_
  rw [fullDecomposition_of_hangul hs]
  rw [isHangulCodePoint_iff] at hs
  by_cases hplain : (s - 44032) % 28 = 0
  · rw [hangulParts_of_leadingVowel hplain, if_pos hplain]
    cases hlhs : isHangulCodePoint lhs with
    | false =>
        rw [fullDecomposition_of_not_hangul hlhs]
        simp [eq_comm]
    | true =>
        rw [fullDecomposition_of_hangul hlhs]
        constructor
        · intro heq
          have hlength := congrArg List.length heq
          have htwo := two_le_length_hangulParts lhs
          simp at hlength
          omega
        · rintro ⟨rfl, -⟩
          rw [isHangulCodePoint_iff] at hlhs
          omega
  · rw [hangulParts_of_trailing hplain, if_neg hplain]
    cases hlhs : isHangulCodePoint lhs with
    | false =>
        rw [fullDecomposition_of_not_hangul hlhs]
        rw [← Bool.not_eq_true, isHangulCodePoint_iff] at hlhs
        have hlength : 3 ≠ 2 := Nat.succ_ne_self 2
        exact iff_of_false (fun heq => hlength (congrArg List.length heq)) (by omega)
    | true =>
        rw [fullDecomposition_of_hangul hlhs]
        rw [isHangulCodePoint_iff] at hlhs
        by_cases hlhs' : (lhs - 44032) % 28 = 0
        · rw [hangulParts_of_leadingVowel hlhs']
          simp only [List.cons_append, List.nil_append, List.cons.injEq, and_true]
          omega
        · rw [hangulParts_of_trailing hlhs']
          have hlength : 3 ≠ 4 := (Nat.succ_ne_self 3).symm
          exact iff_of_false (fun heq => hlength (congrArg List.length heq)) (by omega)

end Parts

/-! ## Composition -/

theorem composesDecomposition_iff_composite (lhs rhs : ℕ) :
    ComposesDecomposition lhs rhs ↔
      ∀ s, (composeHangul lhs rhs = s ∧ s ≠ 0) ↔ HangulComposite s lhs rhs :=
  forall_congr' fun s => iff_congr Iff.rfl (fullDecomposition_eq_iff s lhs rhs)

/-- A pair is composed to what decomposes as it does, unless it is a syllable and the base of the
trailing consonants. -/
theorem composesDecomposition_of_not_base {lhs rhs : ℕ}
    (h : ¬ (isLeadingVowel lhs = true ∧ rhs = hangulTrailingBase)) :
    ComposesDecomposition lhs rhs := by
  rw [isLeadingVowel_iff, hangulTrailingBase] at h
  rw [composesDecomposition_iff_composite]
  intro s
  rw [hangulComposite_iff, composeHangul_eq]
  by_cases h₁ : (4352 ≤ lhs ∧ lhs < 4371) ∧ 4449 ≤ rhs ∧ rhs < 4470
  · -- a leading consonant and a vowel
    rw [if_pos h₁]
    split_ifs <;> omega
  · rw [if_neg h₁]
    by_cases h₂ : (44032 ≤ lhs ∧ lhs < 55204 ∧ (lhs - 44032) % 28 = 0) ∧ 4519 ≤ rhs ∧ rhs < 4547
    · -- a syllable and a trailing consonant
      rw [if_pos h₂]
      split_ifs <;> omega
    · rw [if_neg h₂]
      split_ifs <;> omega

theorem not_composesDecomposition_base {lhs : ℕ} (h : isLeadingVowel lhs = true) :
    ¬ ComposesDecomposition lhs hangulTrailingBase := by
  rw [isLeadingVowel_iff] at h
  intro hcomposes
  have hself : composeHangul lhs hangulTrailingBase = lhs := by
    rw [composeHangul_eq, hangulTrailingBase, if_neg (by omega), if_pos (by omega)]
    omega
  have hcomposite : HangulComposite lhs lhs hangulTrailingBase :=
    ((composesDecomposition_iff_composite _ _).1 hcomposes lhs).1 ⟨hself, by omega⟩
  rw [hangulComposite_iff, if_pos h.2.2, hangulTrailingBase] at hcomposite
  omega

theorem composeParts_fullDecomposition {s : ℕ} (h : isHangulCodePoint s = true) :
    composeParts (fullDecomposition s) = s := by
  rw [fullDecomposition_of_hangul h]
  rw [isHangulCodePoint_iff] at h
  have hvowel : composeHangul (4352 + (s - 44032) / 588) (4449 + (s - 44032) % 588 / 28) =
      s - (s - 44032) % 28 := by
    rw [composeHangul_eq, if_pos (by omega)]
    omega
  by_cases hplain : (s - 44032) % 28 = 0
  · rw [hangulParts_of_leadingVowel hplain]
    rw [composeParts, List.foldl_cons, List.foldl_nil, hvowel, hplain, Nat.sub_zero]
  · rw [hangulParts_of_trailing hplain]
    have htrailing : composeHangul (s - (s - 44032) % 28) (4519 + (s - 44032) % 28) = s := by
      rw [composeHangul_eq, if_neg (by omega), if_pos (by omega)]
      omega
    rw [composeParts, List.foldl_cons, List.foldl_cons, List.foldl_nil, hvowel, htrailing]

/-- Syllables are composed from their decompositions, and a pair is composed to what decomposes as
it does if and only if it is not a syllable without a trailing consonant and the base of those. -/
theorem composeHangul_inverse_iff (s lhs rhs : ℕ) :
    (isHangulCodePoint s = true → composeParts (fullDecomposition s) = s) ∧
      (ComposesDecomposition lhs rhs ↔
        ¬ (isLeadingVowel lhs = true ∧ rhs = hangulTrailingBase)) := by
  refine ⟨fun hs => composeParts_fullDecomposition hs, ?_, composesDecomposition_of_not_base⟩
  rintro h ⟨hlhs, rfl⟩
  exact not_composesDecomposition_base hlhs h

/-- U+AC00 and U+11A7 are composed to U+AC00. -/
theorem not_composesDecomposition_ga : ¬ ComposesDecomposition 0xAC00 0x11A7 :=
  not_composesDecomposition_base (by decide)

end Webpp.Unicode
