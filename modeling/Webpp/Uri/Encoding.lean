import Mathlib.Data.UInt
import Webpp.Foundation.PercentCode

/-!
# Decoding components

`decode_uri_component` on bytes, with either policy. A hexadecimal digit that is none has the
value -1, and the two digits of an escape are put together before they are tested once. Their
high bits are set where the first one is no digit, which is -1 only where the low ones are set
too: `%G0` is read as the byte 0xF0.
-/

namespace Webpp.Uri.Encoding

open PercentCode

variable {p : Piece UInt8} {c : UInt8}

def percentSign : UInt8 := '%'.toUInt8

inductive UriEncodingPolicy where
  /-- The characters of the set are allowed. -/
  | skipChars
  /-- All characters are allowed except these. -/
  | encodeChars
  deriving DecidableEq, Repr

/-- The test of a character that is no `%`. -/
def UriEncodingPolicy.allows (policy : UriEncodingPolicy) (chars : UInt8 → Bool) (c : UInt8) :
    Bool :=
  match policy with
  | .skipChars => chars c
  | .encodeChars => !chars c

/-- `static_cast<int>(~0UL)`. -/
def ones : BitVec 32 := BitVec.allOnes 32

/-- `ascii::hex_digit_safe<int>`. -/
def hexDigitSafe (c : UInt8) (defaultValue : BitVec 32) : BitVec 32 :=
  if '0'.toUInt8 ≤ c ∧ c ≤ '9'.toUInt8 then BitVec.ofNat 32 (c.toNat - '0'.toNat)
  else if 'a'.toUInt8 ≤ c ∧ c ≤ 'f'.toUInt8 then BitVec.ofNat 32 (c.toNat - 'a'.toNat + 10)
  else if 'A'.toUInt8 ≤ c ∧ c ≤ 'F'.toUInt8 then BitVec.ofNat 32 (c.toNat - 'A'.toNat + 10)
  else defaultValue

def decodedChar (c1 c2 : UInt8) : BitVec 32 :=
  (hexDigitSafe c1 ones <<< 4) ||| hexDigitSafe c2 ones

/-- `static_cast<char_type>(decoded_char)`. -/
def toChar (decoded : BitVec 32) : UInt8 := UInt8.ofNat decoded.toNat

/-- What is appended to the output, where the position stops, and what is returned. -/
structure Decoded where
  output : List UInt8
  pos : List UInt8
  valid : Bool
  deriving DecidableEq, Repr

def Decoded.cons (c : UInt8) (d : Decoded) : Decoded := { d with output := c :: d.output }

def decodeUriComponent (policy : UriEncodingPolicy) (chars : UInt8 → Bool) :
    List UInt8 → Decoded
  | [] => ⟨[], [], true⟩
  | c :: pos =>
      if c = percentSign then
        match pos with
        | c1 :: c2 :: rest =>
            if decodedChar c1 c2 ≠ ones then
              (decodeUriComponent policy chars rest).cons (toChar (decodedChar c1 c2))
            else ⟨[], c2 :: rest, false⟩
        | pos => ⟨[], pos, false⟩
      else if policy.allows chars c then (decodeUriComponent policy chars pos).cons c
      else ⟨[], c :: pos, false⟩

/-- The output of a text that is accepted. -/
def Decoded.result (d : Decoded) : Option (List UInt8) := if d.valid then some d.output else none

/-! ## What a text stands for -/

/-- The value of a hexadecimal digit. -/
def hexValue (c : UInt8) : Option (Fin 16) :=
  if '0'.toUInt8 ≤ c ∧ c ≤ '9'.toUInt8 then some (Fin.ofNat 16 (c.toNat - '0'.toNat))
  else if 'a'.toUInt8 ≤ c ∧ c ≤ 'f'.toUInt8 then some (Fin.ofNat 16 (c.toNat - 'a'.toNat + 10))
  else if 'A'.toUInt8 ≤ c ∧ c ≤ 'F'.toUInt8 then some (Fin.ofNat 16 (c.toNat - 'A'.toNat + 10))
  else none

/-- An escape of two hexadecimal digits stands for the byte with these digits, and an allowed
character for itself. -/
def standsFor (policy : UriEncodingPolicy) (chars : UInt8 → Bool) : Piece UInt8 → Option UInt8
  | .plain c => if policy.allows chars c then some c else none
  | .escape c1 c2 =>
      (hexValue c1).bind fun d1 => (hexValue c2).map fun d2 => UInt8.ofNat (16 * d1.val + d2.val)
  | .cut _ => none

/-- What a text stands for: every `%` in it is followed by two hexadecimal digits, and every other
character is allowed. -/
def percentDecoded (policy : UriEncodingPolicy) (chars : UInt8 → Bool) (text : List UInt8) :
    Option (List UInt8) :=
  (pieces percentSign text).mapM (standsFor policy chars)

/-! ## How the source reads an escape -/

/-- The digits are put together with the mask of the one that is no digit. -/
def looseEscape (c1 c2 : UInt8) : Option UInt8 :=
  match hexValue c1, hexValue c2 with
  | _, none => none
  | some d1, some d2 => some (UInt8.ofNat (16 * d1.val + d2.val))
  | none, some d2 => if d2 = 15 then none else some (UInt8.ofNat (0xF0 + d2.val))

/-- What the source takes a piece for. -/
def readsAs (policy : UriEncodingPolicy) (chars : UInt8 → Bool) : Piece UInt8 → Option UInt8
  | .plain c => if policy.allows chars c then some c else none
  | .escape c1 c2 => looseEscape c1 c2
  | .cut _ => none

theorem hexDigitSafe_of_hexValue {d : Fin 16} (h : hexValue c = some d)
    (defaultValue : BitVec 32) : hexDigitSafe c defaultValue = BitVec.ofNat 32 d := by
  have h0 : '0'.toUInt8.toNat = 48 := rfl
  have h9 : '9'.toUInt8.toNat = 57 := rfl
  have ha : 'a'.toUInt8.toNat = 97 := rfl
  have hf : 'f'.toUInt8.toNat = 102 := rfl
  have hA : 'A'.toUInt8.toNat = 65 := rfl
  have hF : 'F'.toUInt8.toNat = 70 := rfl
  have h0' : '0'.toNat = 48 := rfl
  have ha' : 'a'.toNat = 97 := rfl
  have hA' : 'A'.toNat = 65 := rfl
  simp only [hexValue, hexDigitSafe, UInt8.le_iff_toNat_le] at h ⊢
  split_ifs at h ⊢
  all_goals
    cases h
    exact congrArg _ (Nat.mod_eq_of_lt (by omega)).symm

theorem hexDigitSafe_of_none (h : hexValue c = none) (defaultValue : BitVec 32) :
    hexDigitSafe c defaultValue = defaultValue := by
  rw [hexValue] at h
  rw [hexDigitSafe]
  split_ifs at h ⊢
  rfl

section Digits

variable (d1 d2 : Fin 16)

theorem escape_digits :
    (BitVec.ofNat 32 d1 <<< 4) ||| BitVec.ofNat 32 d2 ≠ ones ∧
      toChar ((BitVec.ofNat 32 d1 <<< 4) ||| BitVec.ofNat 32 d2) =
        UInt8.ofNat (16 * d1.val + d2.val) := by
  revert d1 d2
  decide

theorem escape_first_digit : (BitVec.ofNat 32 d1 <<< 4) ||| ones = ones := by
  revert d1
  decide

/-- Behind a first character that is no digit, only `F` gives -1. -/
theorem escape_second_digit :
    (if (ones <<< 4) ||| BitVec.ofNat 32 d2 ≠ ones then
      some (toChar ((ones <<< 4) ||| BitVec.ofNat 32 d2)) else none) =
      if d2 = 15 then none else some (UInt8.ofNat (0xF0 + d2.val)) := by
  revert d2
  decide

end Digits

/-- The one test of `decoded_char` refuses what `looseEscape` refuses. -/
theorem decodedChar_eq (c1 c2 : UInt8) :
    (if decodedChar c1 c2 ≠ ones then some (toChar (decodedChar c1 c2)) else none) =
      looseEscape c1 c2 := by
  rw [decodedChar, looseEscape]
  cases h1 : hexValue c1 with
  | none =>
      rw [hexDigitSafe_of_none h1]
      cases h2 : hexValue c2 with
      | none =>
          rw [hexDigitSafe_of_none h2]
          decide
      | some d2 =>
          rw [hexDigitSafe_of_hexValue h2]
          exact escape_second_digit d2
  | some d1 =>
      rw [hexDigitSafe_of_hexValue h1]
      cases h2 : hexValue c2 with
      | none =>
          rw [hexDigitSafe_of_none h2, escape_first_digit]
          exact if_neg (not_not.mpr rfl)
      | some d2 =>
          obtain ⟨hne, hchar⟩ := escape_digits d1 d2
          rw [hexDigitSafe_of_hexValue h2, if_pos hne, hchar]

theorem looseEscape_eq_none {c1 c2 : UInt8} (h : looseEscape c1 c2 = none) :
    decodedChar c1 c2 = ones := by
  rw [← decodedChar_eq] at h
  by_contra hne
  rw [if_pos hne] at h
  cases h

theorem looseEscape_eq_some {c1 c2 c : UInt8} (h : looseEscape c1 c2 = some c) :
    decodedChar c1 c2 ≠ ones ∧ toChar (decodedChar c1 c2) = c := by
  rw [← decodedChar_eq] at h
  by_cases hne : decodedChar c1 c2 ≠ ones
  · rw [if_pos hne] at h
    exact ⟨hne, Option.some.inj h⟩
  · rw [if_neg hne] at h
    cases h

/-! ## One round of the loop for each piece -/

section Rounds

variable {policy : UriEncodingPolicy} {chars : UInt8 → Bool}

theorem decodeUriComponent_plain (hc : c ≠ percentSign) (text : List UInt8) :
    decodeUriComponent policy chars (c :: text) =
      if policy.allows chars c then (decodeUriComponent policy chars text).cons c
      else ⟨[], c :: text, false⟩ := by
  rw [decodeUriComponent.eq_def]
  exact if_neg hc

theorem decodeUriComponent_escape (c1 c2 : UInt8) (rest : List UInt8) :
    decodeUriComponent policy chars (percentSign :: c1 :: c2 :: rest) =
      if decodedChar c1 c2 ≠ ones then
        (decodeUriComponent policy chars rest).cons (toChar (decodedChar c1 c2))
      else ⟨[], c2 :: rest, false⟩ := by
  rw [decodeUriComponent.eq_def]
  exact if_pos rfl

theorem decodeUriComponent_cut {rest : List UInt8} (h : rest.length < 2) :
    decodeUriComponent policy chars (percentSign :: rest) = ⟨[], rest, false⟩ := by
  rcases rest with _ | ⟨c1, _ | ⟨c2, rest⟩⟩
  · exact if_pos rfl
  · exact if_pos rfl
  · rw [List.length_cons, List.length_cons] at h
    omega

end Rounds

theorem Decoded.result_cons (c : UInt8) (d : Decoded) :
    (d.cons c).result = d.result.map (List.cons c) := by
  rw [result, result, cons]
  cases d.valid with
  | true => rfl
  | false => rfl

variable (policy : UriEncodingPolicy) (chars : UInt8 → Bool)

theorem decodeUriComponent_result (text : List UInt8) :
    (decodeUriComponent policy chars text).result =
      (pieces percentSign text).mapM (readsAs policy chars) := by
  induction text using pieces_induction percentSign with
  | nil => rfl
  | plain c text hc ih =>
      rw [decodeUriComponent_plain hc, pieces_plain hc, List.mapM_cons, readsAs, ← ih]
      by_cases hallowed : policy.allows chars c = true
      · rw [if_pos hallowed, if_pos hallowed, Decoded.result_cons]
        cases (decodeUriComponent policy chars text).result with
        | none => rfl
        | some out => rfl
      · rw [if_neg hallowed, if_neg hallowed]
        rfl
  | escape c1 c2 rest ih =>
      rw [decodeUriComponent_escape, pieces_escape, List.mapM_cons, readsAs, ← ih]
      cases hread : looseEscape c1 c2 with
      | none =>
          rw [if_neg (not_not.mpr (looseEscape_eq_none hread))]
          rfl
      | some c =>
          obtain ⟨hne, hchar⟩ := looseEscape_eq_some hread
          rw [if_pos hne, hchar, Decoded.result_cons]
          cases (decodeUriComponent policy chars rest).result with
          | none => rfl
          | some out => rfl
  | cut rest hrest =>
      rw [decodeUriComponent_cut hrest, pieces_cut hrest]
      rfl

/-! ## When the source reads a text right -/

/-- An escape that is let through although its first character is no hexadecimal digit. -/
def Loose : Piece UInt8 → Prop
  | .escape c1 c2 => hexValue c1 = none ∧ ∃ d, hexValue c2 = some d ∧ d ≠ 15
  | _ => False

/-- A piece that is refused: a `%` without two characters behind it, an escape without a second
digit or with the second digit `F` and no first one, and a character that is not allowed. -/
def Refused : Piece UInt8 → Prop
  | .plain c => policy.allows chars c = false
  | .escape c1 c2 => hexValue c2 = none ∨ hexValue c1 = none ∧ hexValue c2 = some 15
  | .cut _ => True

variable {policy chars}

theorem readsAs_of_standsFor
    (h : standsFor policy chars p = some c) : readsAs policy chars p = some c := by
  cases p with
  | plain c' => exact h
  | cut rest => exact h
  | escape c1 c2 =>
      rw [standsFor, Option.bind_eq_some_iff] at h
      obtain ⟨d1, h1, h⟩ := h
      rw [Option.map_eq_some_iff] at h
      obtain ⟨d2, h2, h⟩ := h
      rw [readsAs, looseEscape, h1, h2]
      exact congrArg some h

theorem refused_iff :
    Refused policy chars p ↔ readsAs policy chars p = none := by
  cases p with
  | plain c =>
      rw [Refused, readsAs]
      cases policy.allows chars c with
      | true => exact iff_of_false (by decide) (by simp)
      | false => exact iff_of_true rfl rfl
  | cut rest => exact iff_of_true trivial rfl
  | escape c1 c2 =>
      rw [Refused, readsAs, looseEscape]
      cases h1 : hexValue c1 with
      | none =>
          cases h2 : hexValue c2 with
          | none => simp
          | some d2 => simp
      | some d1 =>
          cases h2 : hexValue c2 with
          | none => simp
          | some d2 => simp

theorem loose_iff (policy : UriEncodingPolicy) (chars : UInt8 → Bool) :
    Loose p ↔ standsFor policy chars p = none ∧ readsAs policy chars p ≠ none := by
  cases p with
  | plain c => exact iff_of_false id fun h => h.2 h.1
  | cut rest => exact iff_of_false id fun h => h.2 h.1
  | escape c1 c2 =>
      rw [Loose, standsFor, readsAs, looseEscape]
      cases h1 : hexValue c1 with
      | none =>
          cases h2 : hexValue c2 with
          | none => simp
          | some d2 => simp
      | some d1 =>
          cases h2 : hexValue c2 with
          | none => simp
          | some d2 => simp

/-- A text is read right where no loose escape is in it, or something else is refused. -/
theorem decodeUriComponent_right_iff (policy : UriEncodingPolicy) (chars : UInt8 → Bool)
    (text : List UInt8) :
    (decodeUriComponent policy chars text).result = percentDecoded policy chars text ↔
      (∃ p ∈ pieces percentSign text, Refused policy chars p) ∨
        ∀ p ∈ pieces percentSign text, ¬ Loose p := by
  rw [decodeUriComponent_result, percentDecoded,
    mapM_eq_mapM_iff fun p c h => readsAs_of_standsFor h]
  refine or_congr ?_ ?_
  · exact exists_congr fun p => and_congr_right fun _ => refused_iff.symm
  · refine forall₂_congr fun p _ => ?_
    rw [loose_iff policy chars, not_and, not_not]

/-- `%G0` is accepted as one byte. -/
theorem decodeUriComponent_loose :
    ¬ ∀ (policy : UriEncodingPolicy) (chars : UInt8 → Bool) (text : List UInt8),
      (decodeUriComponent policy chars text).result = percentDecoded policy chars text := by
  intro h
  have hloose := h .skipChars (fun _ => false) [0x25, 0x47, 0x30]
  revert hloose
  decide

end Webpp.Uri.Encoding
