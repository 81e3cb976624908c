import Mathlib.Data.Int.Order.Basic
import Mathlib.Data.List.Forall2
import Mathlib.Algebra.Order.Ring.Int

/-!
# Strings that are equal up to the case

`iequals` is told which of the two strings has lower or upper case already, and then changes the
characters of the other one only. Where the second string has upper case, its loop over strings
returns false at a character that agrees, and passes over one that does not.
-/

namespace Webpp.Text.Ascii

/-! ## Characters -/

/-- A character type: its characters are integers of so many bits. -/
structure CharType where
  signed : Bool
  bits : ℕ
  eight_le : 8 ≤ bits

namespace CharType

variable (T : CharType)

def lowest : ℤ := if T.signed then -2 ^ (T.bits - 1) else 0

/-- The integer is a character of the type. -/
def Has (c : ℤ) : Prop := T.lowest ≤ c ∧ c < T.lowest + 2 ^ T.bits

/-- `static_cast` to the type -/
def cast (c : ℤ) : ℤ := (c - T.lowest) % 2 ^ T.bits + T.lowest

variable {T}

theorem cast_of_has {c : ℤ} (h : T.Has c) : T.cast c = c := by
  obtain ⟨hlow, hhigh⟩ := h
  rw [cast, Int.emod_eq_of_lt (by omega) (by omega)]
  omega

theorem has_ascii {c : ℤ} (h₀ : 0 ≤ c) (h : c < 128) : T.Has c := by
  have hpow : (2 : ℤ) ^ T.bits = 2 * 2 ^ (T.bits - 1) := by
    rw [← pow_succ', Nat.sub_add_cancel (Nat.le_trans (by decide) T.eight_le)]
  have hle : (2 : ℤ) ^ 7 ≤ 2 ^ (T.bits - 1) :=
    pow_le_pow_right₀ (by decide) (Nat.le_sub_of_add_le T.eight_le)
  rw [Has, hpow, lowest]
  split_ifs <;> constructor <;> omega

end CharType

def toLowerCopy (inpChar : ℤ) : ℤ := if 65 ≤ inpChar ∧ inpChar ≤ 90 then inpChar + 32 else inpChar

def toUpperCopy (inpChar : ℤ) : ℤ := if 97 ≤ inpChar ∧ inpChar ≤ 122 then inpChar - 32 else inpChar

/-- The letters of both cases. -/
def IsLetter (c : ℤ) : Prop := (65 ≤ c ∧ c ≤ 90) ∨ (97 ≤ c ∧ c ≤ 122)

instance (c : ℤ) : Decidable (IsLetter c) := inferInstanceAs (Decidable (_ ∨ _))

theorem CharType.Has.toLowerCopy {T : CharType} {c : ℤ} (h : T.Has c) : T.Has (toLowerCopy c) := by
  rw [Ascii.toLowerCopy]
  split_ifs with hc
  · exact has_ascii (by omega) (by omega)
  · exact h

theorem CharType.Has.toUpperCopy {T : CharType} {c : ℤ} (h : T.Has c) : T.Has (toUpperCopy c) := by
  rw [Ascii.toUpperCopy]
  split_ifs with hc
  · exact has_ascii (by omega) (by omega)
  · exact h

/-- What is no letter, only agrees with itself. -/
theorem toLowerCopy_eq_iff (a b : ℤ) :
    toLowerCopy a = toLowerCopy b ↔
      if IsLetter a ∧ IsLetter b then toLowerCopy a = toLowerCopy b else a = b := by
  split_ifs with h
  · exact Iff.rfl
  · rw [IsLetter, IsLetter] at h
    rw [toLowerCopy, toLowerCopy]
    split_ifs <;> omega

theorem toUpperCopy_eq_iff (a b : ℤ) :
    toUpperCopy a = toUpperCopy b ↔ toLowerCopy a = toLowerCopy b := by
  rw [toUpperCopy, toUpperCopy, toLowerCopy, toLowerCopy]
  split_ifs <;> omega

/-! ## The comparisons -/

inductive CharCaseSide where
  | firstLowered
  | secondLowered
  | bothLowered
  | firstUppered
  | secondUppered
  | bothUppered
  | bothUnknown
  deriving DecidableEq

namespace CharCaseSide

/-- What is promised of the characters of the first string. -/
def First (side : CharCaseSide) (c : ℤ) : Prop :=
  match side with
  | firstLowered | bothLowered => toLowerCopy c = c
  | firstUppered | bothUppered => toUpperCopy c = c
  | _ => True

/-- What is promised of the characters of the second string. -/
def Second (side : CharCaseSide) (c : ℤ) : Prop :=
  match side with
  | secondLowered | bothLowered => toLowerCopy c = c
  | secondUppered | bothUppered => toUpperCopy c = c
  | _ => True

end CharCaseSide

/-- `iequals` of characters -/
def iequalsChar (side : CharCaseSide) (lhs rhs : ℤ) : Bool :=
  match side with
  | .bothLowered | .bothUppered => lhs == rhs
  | .firstLowered => lhs == rhs || lhs == toLowerCopy rhs
  | .firstUppered => lhs == rhs || lhs == toUpperCopy rhs
  | .secondLowered => lhs == rhs || toLowerCopy lhs == rhs
  | .secondUppered => lhs == rhs || toUpperCopy lhs == rhs
  | .bothUnknown => if lhs == rhs then true else toLowerCopy lhs == toLowerCopy rhs

/-- Where the loop of `iequals` returns false, for characters that are not equal. -/
def returnsFalse (side : CharCaseSide) (T : CharType) (ch1 ch2 : ℤ) : Bool :=
  match side with
  | .firstLowered => ch1 != T.cast (toLowerCopy ch2)
  | .secondLowered => toLowerCopy ch1 != T.cast ch2
  | .firstUppered => ch1 != T.cast (toUpperCopy ch2)
  | .secondUppered => toUpperCopy ch1 == T.cast ch2
  | _ => toLowerCopy ch1 != T.cast (toLowerCopy ch2)

/-- The loop of `iequals` over strings of one size -/
def iequalsLoop (side : CharCaseSide) (T : CharType) : List ℤ → List ℤ → Bool
  | ch1 :: str1, ch2 :: str2 =>
      if ch1 ≠ T.cast ch2 ∧ returnsFalse side T ch1 ch2 then false
      else iequalsLoop side T str1 str2
  | _, _ => true

/-- `iequals` of strings, where `T` is the character type of the first one -/
def iequals (side : CharCaseSide) (T : CharType) (str1 str2 : List ℤ) : Bool :=
  if str1.length ≠ str2.length then false
  else match side with
    | .bothLowered | .bothUppered => str1 == str2
    | _ => iequalsLoop side T str1 str2

variable {side : CharCaseSide} {T : CharType} {a b : ℤ} {str1 str2 : List ℤ}

/-! ## Positions -/

theorem eq_or_eq_iff_of_first {f : ℤ → ℤ} (ha : f a = a) : a = b ∨ a = f b ↔ f a = f b := by
  rw [ha]
  exact or_iff_right_of_imp fun h => by rw [← h, ha]

theorem eq_or_eq_iff_of_second {f : ℤ → ℤ} (hb : f b = b) : a = b ∨ f a = b ↔ f a = f b := by
  rw [hb]
  exact or_iff_right_of_imp fun h => by rw [h, hb]

theorem iequalsChar_iff (ha : side.First a) (hb : side.Second b) :
    iequalsChar side a b = true ↔ toLowerCopy a = toLowerCopy b := by
  cases side with
  | bothLowered =>
      rw [iequalsChar, beq_iff_eq]
      exact ⟨congrArg _, fun h => ha.symm.trans (h.trans hb)⟩
  | bothUppered =>
      rw [iequalsChar, beq_iff_eq, ← toUpperCopy_eq_iff]
      exact ⟨congrArg _, fun h => ha.symm.trans (h.trans hb)⟩
  | firstLowered => simpa [iequalsChar] using eq_or_eq_iff_of_first ha
  | firstUppered =>
      rw [← toUpperCopy_eq_iff]
      simpa [iequalsChar] using eq_or_eq_iff_of_first ha
  | secondLowered => simpa [iequalsChar] using eq_or_eq_iff_of_second hb
  | secondUppered =>
      rw [← toUpperCopy_eq_iff]
      simpa [iequalsChar] using eq_or_eq_iff_of_second hb
  | bothUnknown =>
      rw [iequalsChar]
      split_ifs with h
      · simp [beq_iff_eq.1 h]
      · rw [beq_iff_eq]

/-- The loop goes on at a position. -/
def GoesOn (side : CharCaseSide) (T : CharType) (a b : ℤ) : Prop :=
  a = b ∨ returnsFalse side T a b = false

theorem goesOn_iff (hchar : T.Has b) (ha : side.First a) (hb : side.Second b)
    (hside : side ≠ .bothLowered ∧ side ≠ .bothUppered ∧ side ≠ .secondUppered) :
    GoesOn side T a b ↔ toLowerCopy a = toLowerCopy b := by
  rw [← iequalsChar_iff ha hb, GoesOn]
  cases side with
  | firstLowered => simp [returnsFalse, iequalsChar, CharType.cast_of_has hchar.toLowerCopy]
  | firstUppered => simp [returnsFalse, iequalsChar, CharType.cast_of_has hchar.toUpperCopy]
  | secondLowered => simp [returnsFalse, iequalsChar, CharType.cast_of_has hchar]
  | bothUnknown => simp [returnsFalse, iequalsChar, CharType.cast_of_has hchar.toLowerCopy]
  | bothLowered => exact absurd rfl hside.1
  | bothUppered => exact absurd rfl hside.2.1
  | secondUppered => exact absurd rfl hside.2.2

/-- Where the second string has upper case, it goes on where the characters are the same, or
differ in more than the case. -/
theorem goesOn_secondUppered_iff (hchar : T.Has b) (hb : toUpperCopy b = b) :
    GoesOn .secondUppered T a b ↔ a = b ∨ toLowerCopy a ≠ toLowerCopy b := by
  rw [GoesOn, returnsFalse, CharType.cast_of_has hchar, beq_eq_false_iff_ne, Ne, Ne,
    ← toUpperCopy_eq_iff, hb]

theorem iequalsLoop_iff (hchars : ∀ b ∈ str2, T.Has b) (hlength : str1.length = str2.length) :
    iequalsLoop side T str1 str2 = true ↔ List.Forall₂ (GoesOn side T) str1 str2 := by
  induction str1 generalizing str2 with
  | nil =>
      cases str2 with
      | nil => exact ⟨fun _ => .nil, fun _ => rfl⟩
      | cons => cases hlength
  | cons ch1 str1 ih =>
      cases str2 with
      | nil => cases hlength
      | cons ch2 str2 =>
          rw [List.forall_mem_cons] at hchars
          have hgoes : GoesOn side T ch1 ch2 ↔
              ¬ (ch1 ≠ T.cast ch2 ∧ returnsFalse side T ch1 ch2 = true) := by
            rw [GoesOn, CharType.cast_of_has hchars.1, not_and_or, not_not, Bool.not_eq_true]
          rw [List.forall₂_cons, hgoes, ← ih hchars.2 (Nat.succ_injective hlength), iequalsLoop]
          split_ifs with h <;> simp [h]

theorem forall₂_congr_of_mem {P Q : ℤ → ℤ → Prop}
    (h : ∀ a ∈ str1, ∀ b ∈ str2, P a b ↔ Q a b) :
    List.Forall₂ P str1 str2 ↔ List.Forall₂ Q str1 str2 := by
  rw [List.forall₂_iff_zip, List.forall₂_iff_zip]
  refine and_congr_right fun _ => forall₂_congr fun a b => imp_congr_right fun hmem => ?_
  exact h a (List.of_mem_zip hmem).1 b (List.of_mem_zip hmem).2

/-! ## Strings -/

/-- `iequals` is true exactly if the strings have one size and agree in lower case at each
position; what is no letter, then is the same. -/
def ComparesCases (side : CharCaseSide) (T : CharType) (str1 str2 : List ℤ) : Prop :=
  (iequals side T str1 str2 = true ↔
    List.Forall₂ (fun a b => toLowerCopy a = toLowerCopy b) str1 str2) ∧
  (iequals side T str1 str2 = true ↔
    List.Forall₂ (fun a b => if IsLetter a ∧ IsLetter b then toLowerCopy a = toLowerCopy b
      else a = b) str1 str2)

theorem comparesCases_iff :
    ComparesCases side T str1 str2 ↔ (iequals side T str1 str2 = true ↔
      List.Forall₂ (fun a b => toLowerCopy a = toLowerCopy b) str1 str2) := by
  have heq : (fun a b => if IsLetter a ∧ IsLetter b then toLowerCopy a = toLowerCopy b
      else a = b) = fun a b => toLowerCopy a = toLowerCopy b := by
    funext a b
    exact propext (toLowerCopy_eq_iff a b).symm
  rw [ComparesCases, heq, and_self]

/-- The sides without a loop. -/
def CharCaseSide.Both (side : CharCaseSide) : Prop := side = .bothLowered ∨ side = .bothUppered

theorem iequals_of_both (hside : side.Both) (hlength : str1.length = str2.length) :
    iequals side T str1 str2 = (str1 == str2) := by
  rcases hside with rfl | rfl <;> exact if_neg (not_not.2 hlength)

theorem iequals_of_not_both (hside : ¬ side.Both) (hlength : str1.length = str2.length) :
    iequals side T str1 str2 = iequalsLoop side T str1 str2 := by
  cases side with
  | bothLowered => exact absurd (.inl rfl) hside
  | bothUppered => exact absurd (.inr rfl) hside
  | firstLowered | firstUppered | secondLowered | secondUppered | bothUnknown =>
      exact if_neg (not_not.2 hlength)

theorem length_eq_of_iequals (h : iequals side T str1 str2 = true) :
    str1.length = str2.length := by
  by_contra hne
  have hfalse : iequals side T str1 str2 = false := if_pos hne
  cases h.symm.trans hfalse

theorem iequals_iff_of_ne (hchars : ∀ b ∈ str2, T.Has b) (hfirst : ∀ a ∈ str1, side.First a)
    (hsecond : ∀ b ∈ str2, side.Second b) (hside : side ≠ .secondUppered)
    (hlength : str1.length = str2.length) :
    iequals side T str1 str2 = true ↔
      List.Forall₂ (fun a b => toLowerCopy a = toLowerCopy b) str1 str2 := by
  by_cases hboth : side.Both
  · rw [iequals_of_both hboth hlength, beq_iff_eq, ← List.forall₂_eq_eq_eq]
    refine forall₂_congr_of_mem fun a ha b hb => ?_
    rw [← iequalsChar_iff (hfirst a ha) (hsecond b hb)]
    rcases hboth with rfl | rfl <;> exact beq_iff_eq.symm
  · rw [iequals_of_not_both hboth hlength, iequalsLoop_iff hchars hlength]
    rw [CharCaseSide.Both, not_or] at hboth
    exact forall₂_congr_of_mem fun a ha b hb =>
      goesOn_iff (hchars b hb) (hfirst a ha) (hsecond b hb) ⟨hboth.1, hboth.2, hside⟩

theorem iequals_secondUppered_iff (hchars : ∀ b ∈ str2, T.Has b)
    (hsecond : ∀ b ∈ str2, toUpperCopy b = b) (hlength : str1.length = str2.length) :
    iequals .secondUppered T str1 str2 = true ↔
      List.Forall₂ (fun a b => a = b ∨ toLowerCopy a ≠ toLowerCopy b) str1 str2 := by
  have hboth : ¬ CharCaseSide.secondUppered.Both := by
    rintro (h | h) <;> cases h
  rw [iequals_of_not_both hboth hlength, iequalsLoop_iff hchars hlength]
  exact forall₂_congr_of_mem fun a _ b hb => goesOn_secondUppered_iff (hchars b hb) (hsecond b hb)

/-- Some position has characters that differ in the case only, and some other one characters that
differ in more. -/
def DiffersBothWays (str1 str2 : List ℤ) : Prop :=
  (∃ a b, (a, b) ∈ str1.zip str2 ∧ a ≠ b ∧ toLowerCopy a = toLowerCopy b) ∧
    ∃ a b, (a, b) ∈ str1.zip str2 ∧ toLowerCopy a ≠ toLowerCopy b

/-- Where the second string has upper case, `iequals` compares up to the case exactly if the sizes
differ, the strings are the same, or they differ both ways. -/
theorem comparesCases_iff_of_ne (hlength : str1.length = str2.length) :
    (List.Forall₂ (fun a b => a = b ∨ toLowerCopy a ≠ toLowerCopy b) str1 str2 ↔
      List.Forall₂ (fun a b => toLowerCopy a = toLowerCopy b) str1 str2) ↔
    str1 = str2 ∨ DiffersBothWays str1 str2 := by
  have hsame : str1 = str2 ↔ List.Forall₂ (fun a b => a = b) str1 str2 := by
    rw [List.forall₂_eq_eq_eq]
  rw [hsame]
  simp only [List.forall₂_iff_zip, hlength, true_and]
  constructor
  · intro hiff
    by_cases hall : ∀ {a b}, (a, b) ∈ str1.zip str2 → toLowerCopy a = toLowerCopy b
    · exact .inl fun {a b} hmem => (hiff.2 hall hmem).resolve_right (not_not.2 (hall hmem))
    · have hnot := mt hiff.1 hall
      push Not at hall hnot
      exact .inr ⟨hnot, hall⟩
  · rintro (hsame | ⟨⟨a, b, hmem, hne, heq⟩, a', b', hmem', hne'⟩)
    · exact iff_of_true (fun hmem => .inl (hsame hmem)) fun hmem => congrArg _ (hsame hmem)
    · refine iff_of_false (fun hall => ?_) fun hall => hne' (hall hmem')
      exact (hall hmem).elim hne (not_not.2 heq)

/-- `iequals` compares strings up to the case, except where the second one has upper case and the
strings of one size are neither the same nor differ both ways. -/
theorem iequals_comparesCases_iff (hchars : ∀ b ∈ str2, T.Has b)
    (hfirst : ∀ a ∈ str1, side.First a) (hsecond : ∀ b ∈ str2, side.Second b) :
    ComparesCases side T str1 str2 ↔
      side ≠ .secondUppered ∨ str1.length ≠ str2.length ∨ str1 = str2 ∨
        DiffersBothWays str1 str2 := by
  rw [comparesCases_iff]
  by_cases hlength : str1.length = str2.length
  swap
  · exact iff_of_true (iff_of_false (mt length_eq_of_iequals hlength)
      fun h => hlength h.length_eq) (.inr (.inl hlength))
  by_cases hside : side = .secondUppered
  · subst hside
    rw [iequals_secondUppered_iff hchars hsecond hlength, comparesCases_iff_of_ne hlength]
    simp [hlength]
  · exact iff_of_true (iequals_iff_of_ne hchars hfirst hsecond hside hlength) (.inl hside)

/-- `ab` and `AB` differ in the case at both positions. -/
theorem iequals_comparesCases_iff_ab :
    ComparesCases .secondUppered ⟨true, 8, Nat.le_refl 8⟩ [97, 98] [65, 66] ↔
      CharCaseSide.secondUppered ≠ .secondUppered ∨ [97, 98].length ≠ [65, 66].length ∨
        ([97, 98] : List ℤ) = [65, 66] ∨ DiffersBothWays [97, 98] [65, 66] :=
  iequals_comparesCases_iff
    (by
      intro b hb
      rcases List.mem_pair.1 hb with rfl | rfl <;>
        exact CharType.has_ascii (by decide) (by decide))
    (fun _ _ => trivial)
    (by
      change ∀ b ∈ [65, 66], toUpperCopy b = b
      decide)

/-- `a` is not equal to `A`. -/
theorem not_comparesCases_a :
    ¬ ComparesCases .secondUppered ⟨true, 8, Nat.le_refl 8⟩ [97] [65] := by
  intro h
  have htrue := h.1.2 (.cons rfl .nil)
  have hfalse : iequals .secondUppered ⟨true, 8, Nat.le_refl 8⟩ [97] [65] = false := by decide
  cases hfalse.symm.trans htrue

end Webpp.Text.Ascii
