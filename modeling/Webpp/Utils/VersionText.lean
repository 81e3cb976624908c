import Mathlib.Data.Nat.Digits.Lemmas
import Webpp.Text.CharConv
import Webpp.Text.Search
import Webpp.Utils.Version

/-!
# Texts of versions

`to_string` writes the digits of an octet as the repeated division gives them, the last one first.
`from_string` removes each number together with the dot behind it; where there is no dot, the place
behind it wraps to zero and nothing is removed, so the last number is read again for every octet
that is left. It does not look at what stands behind the last octet.
-/

namespace Webpp.Utils

open PaddedOrder
open Text (isDigit digitChar digitValue numeralValue findFirstOf)

variable {n : ℕ} {T : OctetType}

/-! ## The functions -/

/-- A decimal number that fits the type. -/
def IsOctetText (T : OctetType) (text : List Char) : Prop :=
  text ≠ [] ∧ (∀ c ∈ text, isDigit c = true) ∧ numeralValue text < 2 ^ T.bits

instance (T : OctetType) (text : List Char) : Decidable (IsOctetText T text) :=
  inferInstanceAs (Decidable (_ ∧ _ ∧ _))

/-- `to<integer_type, 10, use_expected>`. -/
def toOctet (T : OctetType) (text : List Char) : Option ℕ :=
  if IsOctetText T text then some (numeralValue text) else none

/-- The loop of `from_string` over the octets: what is returned, and the octets behind it. -/
def fromString (T : OctetType) : (octets : List ℕ) → (str : List Char) → Bool × List ℕ
  | [], _ => (true, [])
  | octet :: octets, str =>
      let dot := findFirstOf ['.'] str
      if dot = none ∧ str = [] then (true, (octet :: octets).map fun _ => 0)
      else
        match toOctet T (str.take (dot.getD str.length)) with
        | none => (false, octet :: octets)
        | some value =>
            -- `npos + 1` is zero
            let r := fromString T octets (str.drop (dot.elim 0 (· + 1)))
            (r.1, value :: r.2)

/-- The loop over the digits of an octet. -/
def numberText (num : ℕ) : List Char :=
  digitChar (num % 10) :: if num / 10 = 0 then [] else numberText (num / 10)

/-- The loop of `to_string` over the octets. -/
def octetsText : List ℕ → List Char
  | [] => []
  | [octet] => numberText octet
  | octet :: octets => numberText octet ++ '.' :: octetsText octets

def BasicVersion.toString (v : BasicVersion n T) : List Char := octetsText v.octets

/-! ## What they are for -/

/-- The text that `to_string` gives is read back, whatever was in the octets before. -/
def RoundTrips (v : BasicVersion n T) : Prop :=
  ∀ octets : List ℕ, octets.length = n → fromString T octets v.toString = (true, v.octets)

/-- The numbers between the dots. -/
def numbers (str : List Char) : List (List Char) := if str = [] then [] else str.splitOn '.'

/-- The text is empty, or it consists of at most so many decimal numbers with dots between. -/
def IsVersionText (T : OctetType) (count : ℕ) (str : List Char) : Prop :=
  (numbers str).length ≤ count ∧ ∀ number ∈ numbers str, IsOctetText T number

instance (T : OctetType) (count : ℕ) (str : List Char) : Decidable (IsVersionText T count str) :=
  inferInstanceAs (Decidable (_ ∧ _))

/-- `from_string` succeeds on the texts of versions, and gives their numbers and zeros. -/
structure ReadsRight (T : OctetType) (count : ℕ) (str : List Char) : Prop where
  succeeds_iff : ∀ octets : List ℕ, octets.length = count →
    ((fromString T octets str).1 = true ↔ IsVersionText T count str)
  octets_eq : ∀ octets : List ℕ, octets.length = count → IsVersionText T count str →
    (fromString T octets str).2 = padTo count ((numbers str).map numeralValue)

/-- What is not read right: numbers behind the last octet, nothing behind the last dot, and a last
number other than zero where octets are left. -/
def Misread (T : OctetType) (count : ℕ) (numbers : List (List Char)) : Prop :=
  count < numbers.length ∧ (∀ number ∈ numbers.take count, IsOctetText T number) ∨
    numbers.length ≤ count ∧ numbers.getLast? = some [] ∧
      (∀ number ∈ numbers.dropLast, IsOctetText T number) ∨
    numbers.length < count ∧ (∀ number ∈ numbers, IsOctetText T number) ∧
      numbers.getLast?.map numeralValue ≠ some 0

instance (T : OctetType) (count : ℕ) (numbers : List (List Char)) :
    Decidable (Misread T count numbers) :=
  inferInstanceAs (Decidable (_ ∧ _ ∨ _ ∧ _ ∧ _ ∨ _ ∧ _ ∧ _))

/-! ## Reading number by number -/

section Reading

theorem not_isOctetText_nil : ¬IsOctetText T [] := fun h => h.1 rfl

theorem toOctet_of {text : List Char} (h : IsOctetText T text) :
    toOctet T text = some (numeralValue text) := if_pos h

theorem toOctet_of_not {text : List Char} (h : ¬IsOctetText T text) : toOctet T text = none :=
  if_neg h

theorem splitOn_dot_cases (str : List Char) :
    (findFirstOf ['.'] str = none ∧ str.splitOn '.' = [str]) ∨
      ∃ number rest, str = number ++ '.' :: rest ∧
        findFirstOf ['.'] str = some number.length ∧
        str.splitOn '.' = number :: rest.splitOn '.' := by
  by_cases hdot : '.' ∈ str
  · obtain ⟨number, rest, rfl, hnumber⟩ := List.eq_append_cons_of_mem hdot
    refine .inr ⟨number, rest, rfl, ?_, ?_⟩
    · refine Text.findFirstOf_append_cons (fun c hc hmem => hnumber ?_) List.mem_cons_self
      rwa [List.mem_singleton.mp hmem] at hc
    · rw [List.splitOn_append_cons_self, List.splitOn_eq_singleton hnumber, List.singleton_append]
  · refine .inl ⟨?_, List.splitOn_eq_singleton hdot⟩
    rw [Text.findFirstOf_eq_none_iff]
    intro c hc hmem
    rw [List.mem_singleton.mp hmem] at hc
    exact hdot hc

variable (octet : ℕ) (octets : List ℕ)

theorem fromString_empty : fromString T (octet :: octets) [] =
    (true, (octet :: octets).map fun _ => 0) := rfl

theorem fromString_number {str : List Char} (hdot : findFirstOf ['.'] str = none) (hstr : str ≠ []) :
    fromString T (octet :: octets) str =
      if IsOctetText T str then
        ((fromString T octets str).1, numeralValue str :: (fromString T octets str).2)
      else (false, octet :: octets) := by
  have htake : str.take (Option.getD none str.length) = str := List.take_length
  rw [fromString]
  simp only [hdot, hstr, and_false, if_false, htake]
  by_cases hnumber : IsOctetText T str
  · rw [toOctet_of hnumber, if_pos hnumber]
    rfl
  · rw [toOctet_of_not hnumber, if_neg hnumber]

theorem fromString_dot (number rest : List Char)
    (hdot : findFirstOf ['.'] (number ++ '.' :: rest) = some number.length) :
    fromString T (octet :: octets) (number ++ '.' :: rest) =
      if IsOctetText T number then
        ((fromString T octets rest).1, numeralValue number :: (fromString T octets rest).2)
      else (false, octet :: octets) := by
  have htake : (number ++ '.' :: rest).take number.length = number := List.take_left
  have hdrop : (number ++ '.' :: rest).drop (number.length + 1) = rest := by
    rw [← List.drop_drop, List.drop_left]
    rfl
  rw [fromString]
  simp only [hdot, reduceCtorEq, false_and, if_false, Option.getD_some, Option.elim_some, htake,
    hdrop]
  by_cases hnumber : IsOctetText T number
  · rw [toOctet_of hnumber, if_pos hnumber]
  · rw [toOctet_of_not hnumber, if_neg hnumber]

theorem fromString_last {str : List Char} (hdot : findFirstOf ['.'] str = none)
    (hnumber : IsOctetText T str) :
    fromString T octets str = (true, octets.map fun _ => numeralValue str) := by
  induction octets with
  | nil => rfl
  | cons octet octets ih =>
      rw [fromString_number octet octets hdot hnumber.1, if_pos hnumber, ih]
      rfl

end Reading

/-! ## Which texts are read right -/

section Misread

variable {count : ℕ} {number : List Char} {numbers : List (List Char)}

theorem misread_zero (h : numbers ≠ []) : Misread T 0 numbers :=
  .inl ⟨List.length_pos_iff.mpr h, by simp⟩

theorem misread_singleton :
    Misread T (count + 1) [number] ↔
      number = [] ∨ 0 < count ∧ IsOctetText T number ∧ numeralValue number ≠ 0 := by
  simp [Misread]

theorem misread_cons (h : numbers ≠ []) :
    Misread T (count + 1) (number :: numbers) ↔
      IsOctetText T number ∧ Misread T count numbers := by
  obtain ⟨next, rest, rfl⟩ := List.exists_cons_of_ne_nil h
  simp only [Misread, List.length_cons, List.take_succ_cons, List.forall_mem_cons,
    List.getLast?_cons_cons, List.dropLast_cons_cons, Nat.add_lt_add_iff_right,
    Nat.add_le_add_iff_right]
  tauto

end Misread

/-- The text consists of at most so many numbers. -/
def IsNumbersText (T : OctetType) (count : ℕ) (str : List Char) : Prop :=
  (str.splitOn '.').length ≤ count ∧ ∀ number ∈ str.splitOn '.', IsOctetText T number

/-- What is read into these octets is right. -/
structure ReadInto (T : OctetType) (octets : List ℕ) (str : List Char) : Prop where
  succeeds_iff : (fromString T octets str).1 = true ↔ IsNumbersText T octets.length str
  octets_eq : IsNumbersText T octets.length str →
    (fromString T octets str).2 = padTo octets.length ((str.splitOn '.').map numeralValue)

section ReadInto

variable {octet : ℕ} {octets : List ℕ} {str : List Char}

theorem not_readInto_nil : ¬ReadInto T [] str := by
  intro h
  have hnumbers := (h.succeeds_iff.mp rfl).1
  exact List.splitOn_ne_nil '.' str (List.eq_nil_of_length_eq_zero (Nat.le_zero.mp hnumbers))

theorem isNumbersText_last (count : ℕ) (hsplit : str.splitOn '.' = [str]) :
    IsNumbersText T (count + 1) str ↔ IsOctetText T str := by
  simp [IsNumbersText, hsplit]

theorem isNumbersText_dot {number rest : List Char} (count : ℕ)
    (hsplit : str.splitOn '.' = number :: rest.splitOn '.') :
    IsNumbersText T (count + 1) str ↔ IsOctetText T number ∧ IsNumbersText T count rest := by
  rw [IsNumbersText, IsNumbersText, hsplit, List.length_cons, List.forall_mem_cons,
    Nat.add_le_add_iff_right]
  tauto

theorem not_readInto_empty : ¬ReadInto T (octet :: octets) [] := by
  intro h
  have hempty := (isNumbersText_last _ (List.splitOn_nil '.')).mp (h.succeeds_iff.mp rfl)
  exact not_isOctetText_nil hempty

theorem readInto_last_iff (hdot : findFirstOf ['.'] str = none) (hsplit : str.splitOn '.' = [str])
    (hstr : str ≠ []) :
    ReadInto T (octet :: octets) str ↔ ¬Misread T (octets.length + 1) (str.splitOn '.') := by
  rw [hsplit, misread_singleton, or_iff_right hstr]
  by_cases hnumber : IsOctetText T str
  · have hread := fromString_last (octet :: octets) hdot hnumber
    have htext := (isNumbersText_last (T := T) octets.length hsplit).mpr hnumber
    constructor
    · rintro h ⟨hcount, -, hvalue⟩
      have heq := h.octets_eq htext
      rw [hread, hsplit, List.map_singleton, List.length_cons, padTo_cons, padTo_nil,
        List.map_cons, List.cons.injEq, List.eq_replicate_iff] at heq
      obtain ⟨next, rest, rfl⟩ := List.exists_cons_of_length_pos hcount
      exact hvalue (heq.2.2 _ List.mem_cons_self)
    · intro h
      refine ⟨iff_of_true (by rw [hread]) htext, fun _ => ?_⟩
      rw [hread, hsplit, List.map_singleton, List.length_cons, padTo_cons, padTo_nil,
        List.map_cons, List.cons.injEq, List.eq_replicate_iff, List.length_map]
      refine ⟨rfl, rfl, fun value hvalue => ?_⟩
      obtain ⟨next, hnext, rfl⟩ := List.mem_map.mp hvalue
      by_contra hzero
      exact h ⟨List.length_pos_of_mem hnext, hnumber, hzero⟩
  · have hread := fromString_number (T := T) octet octets hdot hstr
    rw [if_neg hnumber] at hread
    have htext := mt (isNumbersText_last (T := T) octets.length hsplit).mp hnumber
    refine iff_of_true ⟨iff_of_false ?_ htext, fun h => (htext h).elim⟩ fun h => hnumber h.2.1
    rw [hread]
    exact Bool.false_ne_true

theorem readInto_dot_iff {number rest : List Char}
    (hdot : findFirstOf ['.'] (number ++ '.' :: rest) = some number.length)
    (hsplit : (number ++ '.' :: rest).splitOn '.' = number :: rest.splitOn '.')
    (hnumber : IsOctetText T number) :
    ReadInto T (octet :: octets) (number ++ '.' :: rest) ↔ ReadInto T octets rest := by
  have hread := fromString_dot (T := T) octet octets number rest hdot
  rw [if_pos hnumber] at hread
  have htext := isNumbersText_dot (T := T) octets.length hsplit
  rw [and_iff_right hnumber] at htext
  constructor
  · intro h
    have hsucceeds := h.succeeds_iff
    have hoctets := h.octets_eq
    rw [hread, List.length_cons, htext] at hsucceeds hoctets
    refine ⟨hsucceeds, fun hrest => ?_⟩
    have heq := hoctets hrest
    rw [hsplit, List.map_cons, padTo_cons, List.cons.injEq] at heq
    exact heq.2
  · intro h
    refine ⟨?_, fun hrest => ?_⟩
    · rw [hread, List.length_cons, htext]
      exact h.succeeds_iff
    · rw [List.length_cons, htext] at hrest
      rw [hread, hsplit, List.map_cons, List.length_cons, padTo_cons, List.cons.injEq]
      exact ⟨rfl, h.octets_eq hrest⟩

theorem readInto_iff (octets : List ℕ) (str : List Char) :
    ReadInto T octets str ↔ ¬Misread T octets.length (str.splitOn '.') := by
  induction octets generalizing str with
  | nil => exact iff_of_false not_readInto_nil (not_not.mpr (misread_zero (List.splitOn_ne_nil _ _)))
  | cons octet octets ih =>
      rcases splitOn_dot_cases str with ⟨hdot, hsplit⟩ | ⟨number, rest, rfl, hdot, hsplit⟩
      · by_cases hstr : str = []
        · subst hstr
          exact iff_of_false not_readInto_empty
            (not_not.mpr (misread_singleton.mpr (.inl rfl)))
        · exact readInto_last_iff hdot hsplit hstr
      · rw [hsplit, List.length_cons, misread_cons (List.splitOn_ne_nil _ _)]
        by_cases hnumber : IsOctetText T number
        · rw [and_iff_right hnumber, readInto_dot_iff hdot hsplit hnumber]
          exact ih rest
        · have hread := fromString_dot (T := T) octet octets number rest hdot
          rw [if_neg hnumber] at hread
          have htext : ¬IsNumbersText T (octets.length + 1) (number ++ '.' :: rest) :=
            fun h => hnumber ((isNumbersText_dot _ hsplit).mp h).1
          refine iff_of_true ⟨iff_of_false ?_ htext, fun h => (htext h).elim⟩ fun h => hnumber h.1
          rw [hread]
          exact Bool.false_ne_true

end ReadInto

section ReadsRight

variable {count : ℕ} {str : List Char}

theorem readsRight_nil (hcount : 0 < count) : ReadsRight T count [] := by
  have hread : ∀ octets : List ℕ, octets.length = count →
      fromString T octets [] = (true, List.replicate count 0) := by
    intro octets hlength
    obtain ⟨octet, octets, rfl⟩ := List.exists_cons_of_length_pos (hlength.symm ▸ hcount)
    rw [fromString_empty, ← hlength, List.map_const']
  have htext : IsVersionText T count [] := ⟨Nat.zero_le _, by simp [numbers]⟩
  refine ⟨fun octets hlength => ?_, fun octets hlength _ => ?_⟩
  · rw [hread octets hlength]
    exact iff_of_true rfl htext
  · rw [hread octets hlength]
    rfl

theorem readsRight_iff_readInto (hstr : str ≠ []) :
    ReadsRight T count str ↔ ∀ octets : List ℕ, octets.length = count → ReadInto T octets str := by
  have hnumbers : numbers str = str.splitOn '.' := if_neg hstr
  have htext : IsVersionText T count str ↔ IsNumbersText T count str := by
    rw [IsVersionText, hnumbers]
    rfl
  constructor
  · rintro h octets rfl
    refine ⟨(h.succeeds_iff octets rfl).trans htext, fun hread => ?_⟩
    rw [h.octets_eq octets rfl (htext.mpr hread), hnumbers]
  · intro h
    refine ⟨fun octets hlength => ?_, fun octets hlength hread => ?_⟩
    · rw [htext, ← hlength]
      exact (h octets hlength).succeeds_iff
    · rw [hnumbers, ← hlength]
      rw [htext, ← hlength] at hread
      exact (h octets hlength).octets_eq hread

theorem readsRight_iff (hcount : 0 < count) :
    ReadsRight T count str ↔ str = [] ∨ ¬Misread T count (str.splitOn '.') := by
  by_cases hstr : str = []
  · subst hstr
    exact iff_of_true (readsRight_nil hcount) (.inl rfl)
  · rw [or_iff_right hstr, readsRight_iff_readInto hstr]
    constructor
    · intro h
      have hread := (readInto_iff (List.replicate count 0) str).mp (h _ List.length_replicate)
      rwa [List.length_replicate] at hread
    · rintro h octets rfl
      exact (readInto_iff octets str).mpr h

end ReadsRight

/-! ## Which versions are read back -/

/-- The decimal digits are the same from both ends. -/
def IsPalindrome (num : ℕ) : Prop := (Nat.digits 10 num).reverse = Nat.digits 10 num

instance (num : ℕ) : Decidable (IsPalindrome num) := inferInstanceAs (Decidable (_ = _))

section Digits

theorem numberText_eq {num : ℕ} (h : num ≠ 0) :
    numberText num = (Nat.digits 10 num).map digitChar := by
  induction num using Nat.strong_induction_on with
  | _ num ih =>
      rw [numberText, Nat.digits_def' (by decide) (Nat.pos_of_ne_zero h), List.map_cons]
      by_cases hlast : num / 10 = 0
      · rw [if_pos hlast, hlast]
        rfl
      · rw [if_neg hlast, ih _ (Nat.div_lt_self (Nat.pos_of_ne_zero h) (by decide)) hlast]

theorem numberText_zero : numberText 0 = ['0'] := by
  rw [numberText]
  rfl

theorem exists_digits (num : ℕ) :
    ∃ digits : List ℕ, (∀ d ∈ digits, d < 10) ∧ numberText num = digits.map digitChar ∧
      digits ≠ [] := by
  by_cases h : num = 0
  · subst h
    exact ⟨[0], by decide, numberText_zero, List.cons_ne_nil _ _⟩
  · exact ⟨Nat.digits 10 num, fun d hd => Nat.digits_lt_base (by decide) hd, numberText_eq h,
      Nat.digits_ne_nil_iff_ne_zero.mpr h⟩

theorem numeralValue_map_digitChar {digits : List ℕ} (h : ∀ d ∈ digits, d < 10) :
    numeralValue (digits.map digitChar) = Nat.ofDigits 10 digits.reverse := by
  rw [Nat.ofDigits_eq_foldr, List.foldr_reverse, numeralValue, List.foldl_map]
  refine List.foldl_ext _ _ _ fun value d hd => ?_
  rw [Text.digitValue_digitChar (h d hd), Nat.mul_comm, Nat.add_comm]
  rfl

theorem numeralValue_numberText_iff (num : ℕ) :
    numeralValue (numberText num) = num ↔ IsPalindrome num := by
  by_cases h : num = 0
  · subst h
    rw [numberText_zero]
    exact iff_of_true rfl rfl
  · have hdigits : ∀ d ∈ Nat.digits 10 num, d < 10 := fun d hd => Nat.digits_lt_base (by decide) hd
    rw [numberText_eq h, numeralValue_map_digitChar hdigits]
    constructor
    · intro heq
      have hvalue : Nat.ofDigits 10 (Nat.digits 10 num).reverse =
          Nat.ofDigits 10 (Nat.digits 10 num) := heq.trans (Nat.ofDigits_digits 10 num).symm
      exact Nat.ofDigits_inj_of_len_eq (by decide) List.length_reverse
        (fun d hd => hdigits d (List.mem_reverse.mp hd)) hdigits hvalue
    · intro hpalindrome
      rw [hpalindrome, Nat.ofDigits_digits]

theorem isDigit_numberText {num : ℕ} : ∀ c ∈ numberText num, isDigit c = true := by
  obtain ⟨digits, hdigits, htext, -⟩ := exists_digits num
  rw [htext, List.forall_mem_map]
  exact fun d hd => Text.isDigit_digitChar (hdigits d hd)

theorem numberText_ne_nil (num : ℕ) : numberText num ≠ [] := by
  rw [numberText]
  exact List.cons_ne_nil _ _

theorem dot_notMem_numberText (num : ℕ) : '.' ∉ numberText num :=
  fun h => absurd (isDigit_numberText '.' h) (by decide)

end Digits

section RoundTrip

theorem splitOn_octetsText {octets : List ℕ} (h : octets ≠ []) :
    (octetsText octets).splitOn '.' = octets.map numberText := by
  induction octets with
  | nil => exact (h rfl).elim
  | cons octet octets ih =>
      cases octets with
      | nil => exact List.splitOn_eq_singleton (dot_notMem_numberText octet)
      | cons next octets =>
          rw [octetsText, List.splitOn_append_cons_self,
            List.splitOn_eq_singleton (dot_notMem_numberText octet), ih (List.cons_ne_nil _ _)]
          · rfl
          · exact List.cons_ne_nil _ _

theorem octetsText_ne_nil {octets : List ℕ} (h : octets ≠ []) : octetsText octets ≠ [] := by
  cases octets with
  | nil => exact (h rfl).elim
  | cons octet octets =>
      cases octets with
      | nil => exact numberText_ne_nil octet
      | cons next octets => simp [octetsText, numberText_ne_nil]

theorem not_misread_octetsText (octets : List ℕ) :
    ¬Misread T octets.length (octets.map numberText) := by
  rintro (⟨hlength, -⟩ | ⟨-, hlast, -⟩ | ⟨hlength, -⟩)
  · rw [List.length_map] at hlength
    exact Nat.lt_irrefl _ hlength
  · obtain ⟨octet, -, hempty⟩ := List.mem_map.mp (List.mem_of_getLast? hlast)
    exact numberText_ne_nil octet hempty
  · rw [List.length_map] at hlength
    exact Nat.lt_irrefl _ hlength

theorem roundTrips_iff_palindromes (hcount : 0 < n) (v : BasicVersion n T) :
    RoundTrips v ↔ ∀ octet ∈ v.octets, IsPalindrome octet := by
  have hne : v.octets ≠ [] := by
    rw [← List.length_pos_iff, v.length_eq]
    exact hcount
  have hsplit := splitOn_octetsText hne
  have hnumbers : numbers v.toString = v.octets.map numberText :=
    (if_neg (octetsText_ne_nil hne)).trans hsplit
  have hmisread := not_misread_octetsText (T := T) v.octets
  rw [v.length_eq, ← hsplit] at hmisread
  have hread : ReadsRight T n v.toString := (readsRight_iff hcount).mpr (.inr hmisread)
  have hoctets : padTo n ((numbers v.toString).map numeralValue) =
      v.octets.map fun octet => numeralValue (numberText octet) := by
    rw [hnumbers, List.map_map, padTo_of_length_le]
    · rfl
    · rw [List.length_map, v.length_eq]
  constructor
  · intro h octet hmem
    have htrip := h (List.replicate n 0) List.length_replicate
    have hlength : (List.replicate n 0).length = n := List.length_replicate
    have htext := (hread.succeeds_iff _ hlength).mp (congrArg Prod.fst htrip)
    have heq := hread.octets_eq _ hlength htext
    rw [htrip, hoctets] at heq
    have hall := List.map_eq_map_iff.mp ((List.map_id _).trans heq) octet hmem
    exact (numeralValue_numberText_iff octet).mp hall.symm
  · intro h octets hlength
    have hvalue : ∀ octet ∈ v.octets, numeralValue (numberText octet) = octet :=
      fun octet hmem => (numeralValue_numberText_iff octet).mpr (h octet hmem)
    have htext : IsVersionText T n v.toString := by
      rw [IsVersionText, hnumbers, List.length_map, v.length_eq, List.forall_mem_map]
      refine ⟨Nat.le_refl _, fun octet hmem => ⟨numberText_ne_nil octet, isDigit_numberText, ?_⟩⟩
      rw [hvalue octet hmem]
      exact v.fits octet hmem
    refine Prod.ext ((hread.succeeds_iff octets hlength).mpr htext) ?_
    rw [hread.octets_eq octets hlength htext, hoctets]
    exact (List.map_congr_left hvalue).trans (List.map_id _)

end RoundTrip

/-- The versions whose octets are palindromes are read back, and the texts that are not misread
are read right. -/
theorem versionTexts_iff (hcount : 0 < n) :
    (∀ v : BasicVersion n T, RoundTrips v ↔ ∀ octet ∈ v.octets, IsPalindrome octet) ∧
      ∀ str, ReadsRight T n str ↔ str = [] ∨ ¬Misread T n (str.splitOn '.') :=
  ⟨roundTrips_iff_palindromes hcount, fun _ => readsRight_iff hcount⟩

/-- Three octets of 16 bits, as by default. -/
theorem versionTexts_iff_default :
    (0 < 3) ∧ (∀ v : BasicVersion 3 ⟨16, 0⟩,
        RoundTrips v ↔ ∀ octet ∈ v.octets, IsPalindrome octet) ∧
      ∀ str, ReadsRight ⟨16, 0⟩ 3 str ↔ str = [] ∨ ¬Misread ⟨16, 0⟩ 3 (str.splitOn '.') :=
  ⟨by decide, versionTexts_iff (by decide)⟩

/-- `12` is written as `21`, and `1.2` is read as `1.2.2`. -/
theorem not_versionTexts :
    (¬∀ (n : ℕ) (T : OctetType) (v : BasicVersion n T), 0 < n → RoundTrips v) ∧
      ¬∀ (n : ℕ) (T : OctetType) (str : List Char), 0 < n → ReadsRight T n str := by
  constructor
  · intro h
    have htrips := h 1 ⟨16, 0⟩ ⟨[12], rfl, by decide⟩ (by decide)
    rw [roundTrips_iff_palindromes (by decide)] at htrips
    revert htrips
    simp [IsPalindrome]
  · intro h
    have hread := (h 3 ⟨16, 0⟩ ['1', '.', '2'] (by decide)).octets_eq [0, 0, 0] rfl (by decide)
    revert hread
    decide

end Webpp.Utils
