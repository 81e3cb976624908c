import Mathlib.Algebra.Group.Nat.Defs
import Mathlib.Data.Nat.Basic
import Mathlib.Data.List.TakeWhile
import Webpp.Text.Digits

/-!
# The texts of sizes

`append_to` makes a floating point number of an integer before `std::to_chars` writes it, if
the standard library has that function for floating point numbers. The number is written in
the shorter one of two notations, so `100000` is written as `1e+05`.
-/

namespace Webpp.Text

variable {text : List Char} {c : Char}

/-! ## Floating point numbers -/

/-- `static_cast<double>`: the nearest number with 53 significant bits, the even one of two. -/
def toDouble (n : ℕ) : ℕ :=
  let ulp := 2 ^ (n.log2 - 52)
  let low := n / ulp
  let rest := n % ulp
  if 2 * rest < ulp ∨ 2 * rest = ulp ∧ low % 2 = 0 then low * ulp else (low + 1) * ulp

/-- The number with the digits of `value` above `10 ^ zeros` that is read back as `value`, the
nearer one of two. -/
def shortened (value zeros : ℕ) : Option ℕ :=
  let unit := 10 ^ zeros
  let low := value / unit
  let rest := value % unit
  let near := 2 * rest < unit ∨ 2 * rest = unit ∧ low % 2 = 0
  match toDouble (low * unit) == value, toDouble ((low + 1) * unit) == value with
  | true, true => if near then some low else some (low + 1)
  | true, false => some low
  | false, true => some (low + 1)
  | false, false => none

/-- The fewest digits that are read back as `value`, and the zeros behind them. -/
def fewestDigits (value : ℕ) : ℕ → ℕ × ℕ
  | 0 => (value, 0)
  | zeros + 1 =>
      match shortened value (zeros + 1) with
      | some digits => (digits, zeros + 1)
      | none => fewestDigits value zeros

/-- The exponent has at least two digits. -/
def exponentText (n : ℕ) : List Char :=
  if n < 10 then '0' :: Nat.toDigits 10 n else Nat.toDigits 10 n

/-- The digits before the exponent, without zeros at their end. -/
def mantissaText (digits : ℕ) : List Char :=
  match ((Nat.toDigits 10 digits).reverse.dropWhile (· = '0')).reverse with
  | [] => ['0']
  | [digit] => [digit]
  | digit :: fraction => digit :: '.' :: fraction

/-- `std::chars_format::scientific`. -/
def scientific (value : ℕ) : List Char :=
  let r := fewestDigits value ((Nat.toDigits 10 value).length - 1)
  let exponent := (Nat.toDigits 10 (r.1 * 10 ^ r.2)).length - 1
  mantissaText r.1 ++ 'e' :: '+' :: exponentText exponent

/-- `std::to_chars` of a floating point number: the shorter notation, `fixed` if there is
none. -/
def toChars (value : ℕ) : List Char :=
  if (scientific value).length < (Nat.toDigits 10 value).length then scientific value
  else Nat.toDigits 10 value

/-- `append_to` of a size, where `libToChars` is `__cpp_lib_to_chars`. -/
def sizeText (libToChars : Bool) (n : ℕ) : List Char :=
  if libToChars then toChars (toDouble n) else Nat.toDigits 10 n

/-! ## Texts that are decimal numbers -/

/-- The size `n` is written as the digits of `m`: the scientific notation is not shorter, and
the floating point number is `m`. -/
def WrittenAs (libToChars : Bool) (n m : ℕ) : Prop :=
  if libToChars then
    ¬ (scientific (toDouble n)).length < (Nat.toDigits 10 (toDouble n)).length ∧ toDouble n = m
  else n = m

theorem toDigits_ten_inj {n m : ℕ} (h : Nat.toDigits 10 n = Nat.toDigits 10 m) : n = m := by
  have hvalue := congrArg (fun digits => Nat.ofDigitChars 10 digits 0) h
  simp only [Nat.ofDigitChars_ten_toDigits] at hvalue
  exact hvalue

/-- The scientific notation has an `e` in it. -/
theorem scientific_ne_toDigits (value m : ℕ) : scientific value ≠ Nat.toDigits 10 m := by
  intro h
  have hmem : 'e' ∈ Nat.toDigits 10 m := by
    rw [← h, scientific]
    exact List.mem_append_right _ List.mem_cons_self
  have hdigit := Nat.isDigit_of_mem_toDigits (by decide) (by decide) hmem
  exact absurd hdigit (by decide)

theorem sizeText_eq_toDigits_iff (libToChars : Bool) (n m : ℕ) :
    sizeText libToChars n = Nat.toDigits 10 m ↔ WrittenAs libToChars n m := by
  cases libToChars with
  | false => exact ⟨toDigits_ten_inj, congrArg (Nat.toDigits 10)⟩
  | true =>
      rw [sizeText, WrittenAs, if_pos rfl, if_pos rfl, toChars]
      split
      · rename_i hshorter
        exact iff_of_false (scientific_ne_toDigits _ _) fun h => h.1 hshorter
      · rename_i hshorter
        constructor
        · exact fun h => ⟨hshorter, toDigits_ten_inj h⟩
        · exact fun h => congrArg (Nat.toDigits 10) h.2

example : sizeText true 100000 = ['1', 'e', '+', '0', '5'] := by decide +kernel

end Webpp.Text

/-!
# Reading a decimal integer

`std::from_chars` for `int`: an optional minus sign and the longest run of digits, what
stands behind them is left unread.
-/

namespace Webpp.Text

/-- The value of a run of digits. -/
def numeralValue (digits : List Char) : ℕ := digits.foldl (fun n c => n * 10 + digitValue c) 0

/-- The result of `std::from_chars`. -/
inductive FromChars where
  | value (v : Int)
  | invalidArgument
  | outOfRange
  deriving DecidableEq

/-- A value that an `int` may hold. -/
def intResult (v : Int) : FromChars :=
  if v < -2147483648 ∨ 2147483647 < v then .outOfRange else .value v

/-- The value of digits behind a sign. -/
def signedValue (negative : Bool) (digits : List Char) : Int :=
  if negative then -numeralValue digits else numeralValue digits

/-- `std::from_chars` behind the sign. -/
def fromCharsDigits (negative : Bool) (text : List Char) : FromChars :=
  let digits := text.takeWhile isDigit
  if digits = [] then .invalidArgument else intResult (signedValue negative digits)

/-- `std::from_chars(first, last, value)` with an `int`. -/
def fromChars : List Char → FromChars
  | '-' :: text => fromCharsDigits true text
  | text => fromCharsDigits false text

/-- Digits and what is left unread behind them. -/
structure SplitsDigits (text digits junk : List Char) : Prop where
  text_eq : text = digits ++ junk
  ne_nil : digits ≠ []
  digits_all : ∀ c ∈ digits, isDigit c = true
  junk_head : ∀ c, junk.head? = some c → isDigit c = false

theorem takeWhile_of_splits {text digits junk : List Char} (h : SplitsDigits text digits junk) :
    text.takeWhile isDigit = digits := by
  rw [h.text_eq, List.takeWhile_append_of_pos h.digits_all]
  cases junk with
  | nil => simp
  | cons c junk => simp [h.junk_head c rfl]

theorem splits_takeWhile (h : text.takeWhile isDigit ≠ []) :
    SplitsDigits text (text.takeWhile isDigit) (text.dropWhile isDigit) where
  text_eq := List.takeWhile_append_dropWhile.symm
  ne_nil := h
  digits_all := fun _ hc => List.mem_takeWhile_imp hc
  junk_head := fun c hc => by
    have hnot := List.head?_dropWhile_not isDigit text
    rw [hc] at hnot
    exact Bool.eq_false_iff.2 (by simpa using hnot)

/-- A text from which a small number is read: digits, or a minus sign and zeros. -/
def ReadsNumber (limit : ℕ) (text : List Char) (v : ℕ) : Prop :=
  v ≤ limit ∧ ∃ digits junk, numeralValue digits = v ∧
    (SplitsDigits text digits junk ∨ v = 0 ∧ ∃ rest, text = '-' :: rest ∧
      SplitsDigits rest digits junk)

theorem fromCharsDigits_eq {negative : Bool} {text digits junk : List Char}
    (h : SplitsDigits text digits junk) :
    fromCharsDigits negative text = intResult (signedValue negative digits) := by
  rw [fromCharsDigits, takeWhile_of_splits h]
  exact if_neg h.ne_nil

theorem intResult_eq_value {v w : Int} (h : intResult v = .value w) : w = v := by
  rw [intResult] at h
  split at h
  · cases h
  · exact (FromChars.value.inj h).symm

theorem exists_splits_of_value {negative : Bool} {v : Int}
    (h : fromCharsDigits negative text = .value v) :
    ∃ digits junk, SplitsDigits text digits junk ∧ v = signedValue negative digits := by
  by_cases hnil : text.takeWhile isDigit = []
  · simp [fromCharsDigits, hnil] at h
  · have hsplit := splits_takeWhile hnil
    rw [fromCharsDigits_eq hsplit] at h
    exact ⟨_, _, hsplit, intResult_eq_value h⟩

theorem fromChars_iff {limit : ℕ} (hlimit : limit ≤ 2147483647) (text : List Char) (v : ℕ) :
    fromChars text = .value v ∧ v ≤ limit ↔ ReadsNumber limit text v := by
  by_cases hminus : ∃ rest, text = '-' :: rest
  · obtain ⟨rest, rfl⟩ := hminus
    have hsign : ∀ digits junk, ¬SplitsDigits ('-' :: rest) digits junk := by
      intro digits junk h
      cases hd : digits with
      | nil => exact h.ne_nil hd
      | cons c digits =>
          have htext := h.text_eq
          rw [hd, List.cons_append] at htext
          have hc := h.digits_all c (by rw [hd]; exact List.mem_cons_self)
          rw [← (List.cons.inj htext).1] at hc
          exact absurd hc (by decide)
    rw [fromChars]
    constructor
    · rintro ⟨h, hle⟩
      obtain ⟨digits, junk, hsplit, hv⟩ := exists_splits_of_value h
      rw [signedValue, if_pos rfl] at hv
      have hzero : v = 0 := by omega
      exact ⟨hle, digits, junk, by omega, .inr ⟨hzero, rest, rfl, hsplit⟩⟩
    · rintro ⟨hle, digits, junk, hv, hsplit | ⟨hzero, rest', heq, hsplit⟩⟩
      · exact absurd hsplit (hsign _ _)
      · obtain rfl := (List.cons.inj heq).2
        refine ⟨?_, hle⟩
        rw [fromCharsDigits_eq hsplit, signedValue, hv, hzero]
        rfl
  · have hsign : fromChars text = fromCharsDigits false text := by
      rw [fromChars]
      exact fun rest h => hminus ⟨rest, h⟩
    rw [hsign]
    constructor
    · rintro ⟨h, hle⟩
      obtain ⟨digits, junk, hsplit, hv⟩ := exists_splits_of_value h
      exact ⟨hle, digits, junk, by simpa [signedValue] using hv.symm, .inl hsplit⟩
    · rintro ⟨hle, digits, junk, hv, hsplit | ⟨_, rest, heq, _⟩⟩
      · refine ⟨?_, hle⟩
        rw [fromCharsDigits_eq hsplit, signedValue, hv]
        have hfits : ¬((v : Int) < -2147483648 ∨ 2147483647 < (v : Int)) := by omega
        exact if_neg hfits
      · exact absurd ⟨rest, heq⟩ hminus

end Webpp.Text

/-!
## Decimal numerals

The digits of a numeral are those of its value, but for zeros in front.
-/

namespace Webpp.Text

/-- The value of digits behind a value that has been read. -/
def numeralFrom (value : ℕ) (digits : List Char) : ℕ :=
  digits.foldl (fun n c => n * 10 + digitValue c) value

/-- A text without the zeros in front of its last character. -/
def withoutZeros : List Char → List Char
  | [] => []
  | c :: text => if text ≠ [] ∧ c = '0' then withoutZeros text else c :: text

theorem numeralFrom_cons (value : ℕ) (c : Char) (digits : List Char) :
    numeralFrom value (c :: digits) = numeralFrom (value * 10 + digitValue c) digits := by
  rw [numeralFrom, List.foldl_cons, ← numeralFrom]

theorem numeralValue_cons (c : Char) (digits : List Char) :
    numeralValue (c :: digits) = numeralFrom (digitValue c) digits := by
  rw [numeralValue, ← numeralFrom, numeralFrom_cons, Nat.zero_mul, Nat.zero_add]

theorem le_numeralFrom (value : ℕ) (digits : List Char) : value ≤ numeralFrom value digits := by
  induction digits generalizing value with
  | nil => exact Nat.le_refl value
  | cons c digits ih =>
      have hstep : value ≤ value * 10 + digitValue c := by omega
      exact hstep.trans (ih _)

theorem digitChar_of_digitValue (h : isDigit c = true) :
    Nat.digitChar (digitValue c) = c := by
  refine Char.toNat_inj.mp ?_
  have hc := (isDigit_iff c).mp h
  rw [Nat.toNat_digitChar_of_lt_ten (digitValue_lt h), digitValue]
  exact Nat.add_sub_cancel' hc.1

theorem toDigits_digitValue (h : isDigit c = true) :
    Nat.toDigits 10 (digitValue c) = [c] := by
  rw [Nat.toDigits_of_lt_base (digitValue_lt h), digitChar_of_digitValue h]

theorem toDigits_numeralFrom {value : ℕ} (hvalue : 0 < value) {digits : List Char}
    (hdigits : ∀ c ∈ digits, isDigit c = true) :
    Nat.toDigits 10 (numeralFrom value digits) = Nat.toDigits 10 value ++ digits := by
  induction digits generalizing value with
  | nil => rw [List.append_nil]; rfl
  | cons c digits ih =>
      obtain ⟨hc, hrest⟩ := List.forall_mem_cons.mp hdigits
      have hone : Nat.toDigits 10 (value * 10 + digitValue c) = Nat.toDigits 10 value ++ [c] := by
        rw [Nat.mul_comm, ← Nat.toDigits_append_toDigits (by decide) hvalue (digitValue_lt hc),
          toDigits_digitValue hc]
      rw [numeralFrom_cons, ih (by omega) hrest, hone, List.append_assoc]
      rfl

theorem digitValue_pos (h : isDigit c = true) (hne : c ≠ '0') : 0 < digitValue c := by
  refine Nat.pos_of_ne_zero fun hzero => hne ?_
  rw [← digitChar_digitValue h, hzero]
  rfl

theorem withoutZeros_zero (h : text ≠ []) :
    withoutZeros ('0' :: text) = withoutZeros text := if_pos ⟨h, rfl⟩

theorem withoutZeros_of_ne (hc : c ≠ '0') (text : List Char) :
    withoutZeros (c :: text) = c :: text := if_neg fun h => hc h.2

/-- A numeral without zeros in front is the numeral of its value. -/
theorem withoutZeros_eq_toDigits {digits : List Char} (hne : digits ≠ [])
    (hdigits : ∀ c ∈ digits, isDigit c = true) :
    withoutZeros digits = Nat.toDigits 10 (numeralValue digits) := by
  induction digits with
  | nil => exact absurd rfl hne
  | cons c digits ih =>
      obtain ⟨hc, hrest⟩ := List.forall_mem_cons.mp hdigits
      by_cases hzero : c = '0'
      · subst hzero
        by_cases hnil : digits = []
        · subst hnil
          rfl
        · rw [withoutZeros_zero hnil, ih hnil hrest]
          rfl
      · rw [withoutZeros_of_ne hzero, numeralValue_cons,
          toDigits_numeralFrom (digitValue_pos hc hzero) hrest, toDigits_digitValue hc]
        rfl

theorem mem_withoutZeros (hc : c ≠ '0') (h : c ∈ text) :
    c ∈ withoutZeros text := by
  induction text with
  | nil => exact h
  | cons d text ih =>
      rw [withoutZeros]
      split
      · rename_i hskip
        have hne : c ≠ d := fun heq => hc (heq.trans hskip.2)
        exact ih ((List.mem_cons.mp h).resolve_left hne)
      · exact h

end Webpp.Text
