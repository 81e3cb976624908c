import Webpp.Foundation.Numerals
import Webpp.Text.Iequals

/-!
# Integers from texts

`to<T, base, use_expected>` skips a sign, and multiplies and adds in the target type. Up to the
base ten each decimal digit passes, also one that the base does not have. Above the base ten the
character is changed by the distance of a range in which it may not be, and passes unless it is
above the base then; the base itself passes, and so does what has become negative, when the types
of both sides have a negative common type.
-/

namespace Webpp.Casts

open Text.Ascii (CharType)
open Horner

variable {e : IntegerCastingErrors} {c d : ℤ}

/-! ## Integer types -/

/-- An integer type: as for a character type, a sign and a number of bits. -/
abbrev IntType := CharType

instance (T : IntType) (x : ℤ) : Decidable (CharType.Has T x) :=
  inferInstanceAs (Decidable (_ ∧ _))

def int : IntType := ⟨true, 32, by decide⟩

def char : IntType := ⟨true, 8, by decide⟩

/-- The type an operand is promoted to. -/
def promoted (T : IntType) : IntType := if T.bits < 32 then int else T

/-- The type in which two operands are compared: the wider one, and the unsigned one of two types
with as many bits. -/
def common (S T : IntType) : IntType :=
  if (promoted S).bits < (promoted T).bits then promoted T
  else if (promoted T).bits < (promoted S).bits ∨ ¬(promoted S).signed then promoted S
  else promoted T

/-! ## The function -/

inductive IntegerCastingErrors where
  | invalidCharacter
  | invalidBase
deriving DecidableEq

/-- The value of a character of the type `C` in the loop, where it passes. -/
def curDigit (T C : IntType) (base curCh : ℤ) : Except IntegerCastingErrors ℤ :=
  if base ≤ 10 then
    if curCh < 48 ∨ 57 < curCh then .error .invalidCharacter else .ok (C.cast (curCh - 48))
  else
    let digit := C.cast
      (if 97 ≤ curCh then curCh - (97 - 10)
        else if 65 ≤ curCh then curCh - (65 - 10)
        else curCh - 48)
    if base < (common C T).cast digit then .error .invalidBase else .ok digit

/-- What is returned, and whether each product and each sum was in the target type. -/
structure Outcome where
  result : Except IntegerCastingErrors ℤ
  fits : Bool
deriving DecidableEq

/-- The loop over the characters. -/
def toLoop (T C : IntType) (base : ℤ) : List ℤ → ℤ → Bool → Outcome
  | [], ret, fits => ⟨.ok ret, fits⟩
  | curCh :: rest, ret, fits =>
    match curDigit T C base curCh with
    | .error e => ⟨.error e, fits⟩
    | .ok digit =>
      let product := ret * base
      let sum := T.cast product + T.cast digit
      toLoop T C base rest (T.cast sum) (fits && decide (T.Has product) && decide (T.Has sum))

/-- The characters behind the sign. -/
def body : List ℤ → List ℤ
  | [] => []
  | first :: rest => if first = 45 ∨ first = 43 then rest else first :: rest

/-- `to<T, base, use_expected>`, which the functions `try_to_*` call, for a text with characters of
the type `C`. -/
def tryTo (T C : IntType) (base : ℤ) (str : List ℤ) : Outcome :=
  if str = [] then ⟨.ok 0, true⟩
  else
    match toLoop T C base (body str) 0 true with
    | ⟨.error e, fits⟩ => ⟨.error e, fits⟩
    | ⟨.ok ret, fits⟩ =>
      let product := ret * T.cast (if str.head? = some 45 then -1 else 1)
      ⟨.ok (T.cast product), fits && decide (T.Has product)⟩

/-! ## What the texts denote -/

/-- A character is the digit `d` of the base; letters count from ten on, in both cases. -/
def IsDigit (base c d : ℤ) : Prop :=
  d < base ∧ ((48 ≤ c ∧ c ≤ 57 ∧ d = c - 48) ∨ (65 ≤ c ∧ c ≤ 90 ∧ d = c - 55) ∨
    (97 ≤ c ∧ c ≤ 122 ∧ d = c - 87))

/-- The text is an optional sign and at least one digit, with the value `v`. -/
def Denotes (base : ℤ) (str : List ℤ) (v : ℤ) : Prop :=
  ∃ sign digits values, str = sign ++ digits ∧ digits ≠ [] ∧
    List.Forall₂ (IsDigit base) digits values ∧
    ((sign = [45] ∧ v = -valueFrom base 0 values) ∨
      ((sign = [] ∨ sign = [43]) ∧ v = valueFrom base 0 values))

/-- The values the text denotes in the type are returned, everything else is an error, and
nothing leaves the type. -/
def Converts (T C : IntType) (base : ℤ) (str : List ℤ) : Prop :=
  (tryTo T C base str).fits = true ∧
    ∀ v, (tryTo T C base str).result = .ok v ↔ Denotes base str v ∧ T.Has v

/-! ## The loop -/

section Loop

variable {T C : IntType} {base : ℤ}

/-- Characters that pass, with their values. -/
abbrev Passes (T C : IntType) (base : ℤ) : List ℤ → List ℤ → Prop :=
  List.Forall₂ fun c d => curDigit T C base c = .ok d

theorem toLoop_cons_ok (h : curDigit T C base c = .ok d) (rest : List ℤ) (ret : ℤ) (fits : Bool) :
    toLoop T C base (c :: rest) ret fits =
      toLoop T C base rest (T.cast (T.cast (ret * base) + T.cast d))
        (fits && decide (T.Has (ret * base)) &&
          decide (T.Has (T.cast (ret * base) + T.cast d))) := by
  rw [toLoop, h]

theorem toLoop_cons_error {c : ℤ} (h : curDigit T C base c = .error e)
    (rest : List ℤ) (ret : ℤ) (fits : Bool) :
    toLoop T C base (c :: rest) ret fits = ⟨.error e, fits⟩ := by
  rw [toLoop, h]

theorem fits_toLoop_false (chars : List ℤ) (ret : ℤ) :
    (toLoop T C base chars ret false).fits = false := by
  induction chars generalizing ret with
  | nil => rfl
  | cons c rest ih =>
    cases h : curDigit T C base c with
    | error e => rw [toLoop_cons_error h]
    | ok d =>
      rw [toLoop_cons_ok h]
      exact ih _

theorem toLoop_passes {front values : List ℤ} (hfront : Passes T C base front values)
    (rest : List ℤ) {ret : ℤ} (hstays : Stays T.Has base ret (values.map T.cast)) :
    toLoop T C base (front ++ rest) ret true =
      toLoop T C base rest (valueFrom base ret (values.map T.cast)) true := by
  induction hfront generalizing ret with
  | nil => rfl
  | cons hc _ ih =>
    obtain ⟨hproduct, hsum, hrest⟩ := hstays
    rw [List.cons_append, toLoop_cons_ok hc, CharType.cast_of_has hproduct,
      CharType.cast_of_has hsum, decide_eq_true hproduct, decide_eq_true hsum]
    exact ih hrest

theorem stays_of_fits {front values : List ℤ} (hfront : Passes T C base front values)
    (rest : List ℤ) {ret : ℤ} (hfits : (toLoop T C base (front ++ rest) ret true).fits = true) :
    Stays T.Has base ret (values.map T.cast) := by
  induction hfront generalizing ret with
  | nil => trivial
  | @cons c d _ _ hc _ ih =>
    rw [List.cons_append, toLoop_cons_ok hc] at hfits
    by_cases hproduct : T.Has (ret * base)
    · rw [CharType.cast_of_has hproduct] at hfits
      by_cases hsum : T.Has (ret * base + T.cast d)
      · rw [CharType.cast_of_has hsum, decide_eq_true hproduct, decide_eq_true hsum] at hfits
        exact ⟨hproduct, hsum, ih hfits⟩
      · rw [decide_eq_false hsum, Bool.and_false, fits_toLoop_false] at hfits
        exact absurd hfits Bool.false_ne_true
    · rw [decide_eq_false hproduct, Bool.and_false, Bool.false_and, fits_toLoop_false] at hfits
      exact absurd hfits Bool.false_ne_true

theorem passes_or_error (T C : IntType) (base : ℤ) (chars : List ℤ) :
    (∃ values, Passes T C base chars values) ∨
      ∃ front c rest values e, chars = front ++ c :: rest ∧ Passes T C base front values ∧
        curDigit T C base c = .error e := by
  induction chars with
  | nil => exact Or.inl ⟨[], .nil⟩
  | cons c chars ih =>
    cases h : curDigit T C base c with
    | error e => exact Or.inr ⟨[], c, chars, [], e, rfl, .nil, h⟩
    | ok d =>
      obtain ⟨values, hvalues⟩ | ⟨front, x, rest, values, e, rfl, hfront, hx⟩ := ih
      · exact Or.inl ⟨d :: values, .cons h hvalues⟩
      · exact Or.inr ⟨c :: front, x, rest, d :: values, e, rfl, .cons h hfront, hx⟩

end Loop

/-! ## Digits -/

section Digits

variable {T C : IntType} {base : ℤ}

theorem IsDigit.nonneg (h : IsDigit base c d) : 0 ≤ d := by
  obtain ⟨-, h | h | h⟩ := h <;> omega

theorem curDigit_of_isDigit (hbase : base ≤ 36) (h : IsDigit base c d) :
    curDigit T C base c = .ok d := by
  have hd := h.nonneg
  obtain ⟨hlt, hc⟩ := h
  have hcast : ∀ S : IntType, S.cast d = d := fun S =>
    CharType.cast_of_has (CharType.has_ascii hd (by omega))
  by_cases hten : base ≤ 10
  · have hdec : 48 ≤ c ∧ c ≤ 57 ∧ d = c - 48 := by omega
    rw [curDigit, if_pos hten, if_neg (by omega), ← hdec.2.2, hcast]
  · have hdigit : (if 97 ≤ c then c - (97 - 10) else if 65 ≤ c then c - (65 - 10) else c - 48) =
        d := by
      split_ifs <;> omega
    rw [curDigit, if_neg hten, hdigit]
    dsimp only
    rw [hcast, hcast, if_neg (by omega)]

theorem IsDigit.cast (hbase : base ≤ 36) (h : IsDigit base c d) : T.cast d = d :=
  CharType.cast_of_has (CharType.has_ascii h.nonneg (by have := h.1; omega))

theorem passes_of_digits {digits values : List ℤ} (hbase : base ≤ 36)
    (h : List.Forall₂ (IsDigit base) digits values) :
    Passes T C base digits values ∧ values.map T.cast = values ∧ ∀ d ∈ values, 0 ≤ d := by
  induction h with
  | nil => exact ⟨.nil, rfl, by simp⟩
  | cons hd _ ih =>
    obtain ⟨hpasses, hcast, hnonneg⟩ := ih
    refine ⟨.cons (curDigit_of_isDigit hbase hd) hpasses, ?_, ?_⟩
    · rw [List.map_cons, hcast, hd.cast hbase]
    · exact List.forall_mem_cons.mpr ⟨hd.nonneg, hnonneg⟩

theorem Passes.unique {chars values values' : List ℤ} (h : Passes T C base chars values)
    (h' : Passes T C base chars values') : values = values' := by
  induction h generalizing values' with
  | nil =>
    cases h'
    rfl
  | cons hc _ ih =>
    cases h' with
    | cons hc' hrest => rw [Except.ok.inj (hc.symm.trans hc'), ih hrest]

theorem not_passes_error {front rest values : List ℤ} {c : ℤ}
    (hc : curDigit T C base c = .error e) : ¬ Passes T C base (front ++ c :: rest) values := by
  induction front generalizing values with
  | nil =>
    intro h
    cases h with
    | cons hok _ => cases hc.symm.trans hok
  | cons a front ih =>
    intro h
    cases h with
    | cons _ hrest => exact ih hrest

theorem denotes_iff {str : List ℤ} {v : ℤ} :
    Denotes base str v ↔
      body str ≠ [] ∧ ∃ values, List.Forall₂ (IsDigit base) (body str) values ∧
        v = if str.head? = some 45 then -valueFrom base 0 values else valueFrom base 0 values := by
  constructor
  · rintro ⟨sign, digits, values, rfl, hne, hdigits, hv⟩
    obtain ⟨rfl, rfl⟩ | ⟨rfl | rfl, rfl⟩ := hv
    · exact ⟨hne, values, hdigits, rfl⟩
    · cases hdigits with
      | nil => exact absurd rfl hne
      | @cons c d digits values hd hrest =>
        have hc : c ≠ 45 ∧ c ≠ 43 := by
          obtain ⟨-, h | h | h⟩ := hd <;> omega
        have hbody : body ([] ++ c :: digits) = c :: digits := if_neg (by omega)
        have hhead : ([] ++ c :: digits).head? ≠ some 45 := fun h => hc.1 (Option.some_inj.mp h)
        rw [hbody]
        exact ⟨hne, d :: values, .cons hd hrest, (if_neg hhead).symm⟩
    · exact ⟨hne, values, hdigits, rfl⟩
  · rintro ⟨hne, values, hdigits, rfl⟩
    cases str with
    | nil => exact absurd rfl hne
    | cons first rest =>
      by_cases hsign : first = 45 ∨ first = 43
      · have hbody : body (first :: rest) = rest := if_pos hsign
        rw [hbody] at hne hdigits
        obtain rfl | rfl := hsign
        · exact ⟨[45], rest, values, rfl, hne, hdigits, Or.inl ⟨rfl, rfl⟩⟩
        · exact ⟨[43], rest, values, rfl, hne, hdigits, Or.inr ⟨Or.inr rfl, rfl⟩⟩
      · have hbody : body (first :: rest) = first :: rest := if_neg hsign
        have hhead : (first :: rest).head? ≠ some 45 := fun h =>
          hsign (Or.inl (Option.some_inj.mp h))
        rw [hbody] at hdigits
        rw [if_neg hhead]
        exact ⟨[], first :: rest, values, rfl, List.cons_ne_nil _ _, hdigits,
          Or.inr ⟨Or.inl rfl, rfl⟩⟩

end Digits

/-! ## Where the texts are converted -/

/-- Either a character fails, and the products and the sums in front of it are in the type; or
there are digits of the base only, their value is in the type, and is zero where an unsigned type
is to have a negative value. -/
def Sound (T C : IntType) (base : ℤ) (str : List ℤ) : Prop :=
  (∃ front c rest values e, body str = front ++ c :: rest ∧ Passes T C base front values ∧
      curDigit T C base c = .error e ∧ Stays T.Has base 0 (values.map T.cast)) ∨
    body str ≠ [] ∧ ∃ values, List.Forall₂ (IsDigit base) (body str) values ∧
      T.Has (valueFrom base 0 values) ∧
      (str.head? = some 45 → T.signed = false → valueFrom base 0 values = 0)

section Converts

variable {T C : IntType} {base : ℤ} {str : List ℤ}

theorem tryTo_of_ok {ret : ℤ} {fits : Bool} (hne : str ≠ [])
    (h : toLoop T C base (body str) 0 true = ⟨.ok ret, fits⟩) :
    tryTo T C base str =
      ⟨.ok (T.cast (ret * T.cast (if str.head? = some 45 then -1 else 1))),
        fits && decide (T.Has (ret * T.cast (if str.head? = some 45 then -1 else 1)))⟩ := by
  rw [tryTo, if_neg hne, h]

theorem tryTo_of_error {fits : Bool} (hne : str ≠ [])
    (h : toLoop T C base (body str) 0 true = ⟨.error e, fits⟩) :
    tryTo T C base str = ⟨.error e, fits⟩ := by
  rw [tryTo, if_neg hne, h]

theorem fits_toLoop (hne : str ≠ []) (h : (tryTo T C base str).fits = true) :
    (toLoop T C base (body str) 0 true).fits = true := by
  rcases hloop : toLoop T C base (body str) 0 true with ⟨e | ret, fits⟩
  · rwa [tryTo_of_error hne hloop] at h
  · rw [tryTo_of_ok hne hloop, Bool.and_eq_true] at h
    exact h.1

theorem ne_nil_of_body (h : body str ≠ []) : str ≠ [] := by
  rintro rfl
  exact h rfl

theorem lowest_eq_zero (h : T.signed = false) : T.lowest = 0 := by
  rw [CharType.lowest, h]
  rfl

theorem lowest_nonpos (T : IntType) : T.lowest ≤ 0 :=
  (CharType.has_ascii (T := T) le_rfl (by decide)).1

theorem has_neg {x : ℤ} (hsigned : T.signed = true) (h : T.Has x) (hx : 0 ≤ x) : T.Has (-x) := by
  have hpow : (2 : ℤ) ^ T.bits = 2 * 2 ^ (T.bits - 1) := by
    rw [← pow_succ', Nat.sub_add_cancel (Nat.le_trans (by decide) T.eight_le)]
  obtain ⟨-, hlt⟩ := h
  rw [CharType.Has, hpow, CharType.lowest, if_pos hsigned] at *
  omega

theorem cast_neg_one (hsigned : T.signed = true) : T.cast (-1) = -1 :=
  CharType.cast_of_has (has_neg hsigned (CharType.has_ascii (by decide) (by decide)) (by decide))

theorem mul_cast_sign {N : ℤ} (hhas : T.Has N) (hN : 0 ≤ N)
    (hzero : str.head? = some 45 → T.signed = false → N = 0) :
    N * T.cast (if str.head? = some 45 then -1 else 1) =
        (if str.head? = some 45 then -N else N) ∧
      T.Has (if str.head? = some 45 then -N else N) := by
  by_cases hneg : str.head? = some 45
  · rw [if_pos hneg, if_pos hneg]
    cases hsigned : T.signed with
    | true => exact ⟨by rw [cast_neg_one hsigned]; omega, has_neg hsigned hhas hN⟩
    | false =>
      rw [hzero hneg hsigned] at hhas ⊢
      exact ⟨by rw [zero_mul, neg_zero], by rwa [neg_zero]⟩
  · rw [if_neg hneg, if_neg hneg,
      CharType.cast_of_has (CharType.has_ascii (by decide) (by decide)), mul_one]
    exact ⟨rfl, hhas⟩

theorem sound_of_converts (hone : 1 ≤ base) (hbase : base ≤ 36) (h : Converts T C base str) :
    Sound T C base str := by
  obtain ⟨hfits, hresult⟩ := h
  by_cases hne : str = []
  · -- the empty text has the value zero, and denotes nothing
    subst hne
    have hdenotes := ((hresult 0).mp rfl).1
    exact absurd rfl (denotes_iff.mp hdenotes).1
  · obtain ⟨values, hpasses⟩ | ⟨front, c, rest, values, e, hbody, hpasses, hc⟩ :=
      passes_or_error T C base (body str)
    · have hfits := fits_toLoop hne hfits
      have hstays : Stays T.Has base 0 (values.map T.cast) :=
        stays_of_fits hpasses [] (by rwa [List.append_nil])
      have hloop := toLoop_passes hpasses [] hstays
      rw [List.append_nil] at hloop
      obtain ⟨hdenotes, hhas⟩ :=
        (hresult _).mp (congrArg Outcome.result (tryTo_of_ok hne hloop))
      obtain ⟨hbody, digits, hdigits, hv⟩ := denotes_iff.mp hdenotes
      obtain ⟨hdpasses, hcast, hnonneg⟩ := passes_of_digits (T := T) (C := C) hbase hdigits
      rw [hpasses.unique hdpasses, hcast] at hstays
      have hvalue : T.Has (valueFrom base 0 digits) := by
        refine hstays.value ?_
        rintro rfl
        exact hbody (List.forall₂_nil_right_iff.mp hdigits)
      refine Or.inr ⟨hbody, digits, hdigits, hvalue, fun hneg hsigned => ?_⟩
      rw [hv, if_pos hneg, CharType.Has, lowest_eq_zero hsigned] at hhas
      have hN : 0 ≤ valueFrom base 0 digits := le_valueFrom hone le_rfl hnonneg
      omega
    · have hfits := fits_toLoop hne hfits
      rw [hbody] at hfits
      exact Or.inl ⟨front, c, rest, values, e, hbody, hpasses, hc, stays_of_fits hpasses _ hfits⟩

theorem converts_of_sound (hone : 1 ≤ base) (hbase : base ≤ 36) (h : Sound T C base str) :
    Converts T C base str := by
  obtain ⟨front, c, rest, values, e, hbody, hpasses, hc, hstays⟩ |
    ⟨hbody, values, hdigits, hvalue, hzero⟩ := h
  · have hne : str ≠ [] := ne_nil_of_body (by rw [hbody]; simp)
    have hloop : toLoop T C base (body str) 0 true = ⟨.error e, true⟩ := by
      rw [hbody, toLoop_passes hpasses _ hstays, toLoop_cons_error hc]
    rw [Converts, tryTo_of_error hne hloop]
    refine ⟨rfl, fun v => ⟨fun hv => ?_, fun hv => ?_⟩⟩
    · cases hv
    · obtain ⟨-, digits, hdigits, -⟩ := denotes_iff.mp hv.1
      rw [hbody] at hdigits
      exact absurd (passes_of_digits hbase hdigits).1 (not_passes_error hc)
  · obtain ⟨hpasses, hcast, hnonneg⟩ := passes_of_digits (T := T) (C := C) hbase hdigits
    have hN : 0 ≤ valueFrom base 0 values := le_valueFrom hone le_rfl hnonneg
    have hstays : Stays T.Has base 0 values := by
      refine stays_of_le hone le_rfl hnonneg fun x hx hle => ?_
      exact ⟨(lowest_nonpos T).trans hx, hle.trans_lt hvalue.2⟩
    have hloop : toLoop T C base (body str) 0 true = ⟨.ok (valueFrom base 0 values), true⟩ := by
      have hread := toLoop_passes hpasses [] (by rwa [hcast])
      rwa [List.append_nil, hcast] at hread
    obtain ⟨hproduct, hhas⟩ := mul_cast_sign hvalue hN hzero
    rw [Converts, tryTo_of_ok (ne_nil_of_body hbody) hloop, hproduct, CharType.cast_of_has hhas,
      decide_eq_true hhas]
    refine ⟨rfl, fun v => ⟨?_, ?_⟩⟩
    · intro hv
      rw [← Except.ok.inj hv]
      exact ⟨denotes_iff.mpr ⟨hbody, values, hdigits, rfl⟩, hhas⟩
    · rintro ⟨hv, -⟩
      obtain ⟨-, values', hdigits', rfl⟩ := denotes_iff.mp hv
      rw [hpasses.unique (passes_of_digits hbase hdigits').1]

/-- Exactly the sound texts are converted. -/
theorem converts_iff_sound (T C : IntType) (str : List ℤ) (hlow : 2 ≤ base) (hhigh : base ≤ 36) :
    Converts T C base str ↔ Sound T C base str :=
  ⟨sound_of_converts (by omega) hhigh, converts_of_sound (by omega) hhigh⟩

end Converts

/-! ## Where they are not -/

theorem converts_eleven : 2 ≤ 16 ∧ (16 : ℤ) ≤ 36 ∧
    (Converts int char 16 [45, 98] ↔ Sound int char 16 [45, 98]) :=
  ⟨by decide, by decide, converts_iff_sound int char [45, 98] (by decide) (by decide)⟩

/-- No digits, the base as a digit, a digit that the base does not have, and the lowest value
of the type. -/
theorem tryTo_wrong :
    ¬ Converts int char 10 [] ∧ ¬ Converts int char 16 [103] ∧ ¬ Converts int char 8 [56] ∧
      ¬ Converts char char 10 [45, 49, 50, 56] ∧
      tryTo int char 10 [] = ⟨.ok 0, true⟩ ∧ tryTo int char 16 [103] = ⟨.ok 16, true⟩ ∧
      tryTo int char 8 [56] = ⟨.ok 8, true⟩ ∧
      tryTo char char 10 [45, 49, 50, 56] = ⟨.ok (-128), false⟩ := by
  have hempty : tryTo int char 10 [] = ⟨.ok 0, true⟩ := by decide
  have hbase : tryTo int char 16 [103] = ⟨.ok 16, true⟩ := by decide
  have hdigit : tryTo int char 8 [56] = ⟨.ok 8, true⟩ := by decide
  have hlowest : tryTo char char 10 [45, 49, 50, 56] = ⟨.ok (-128), false⟩ := by decide
  refine ⟨?_, ?_, ?_, ?_, hempty, hbase, hdigit, hlowest⟩
  · intro h
    have hdenotes := ((h.2 0).mp (congrArg Outcome.result hempty)).1
    exact (denotes_iff.mp hdenotes).1 rfl
  · intro h
    have hdenotes := ((h.2 16).mp (congrArg Outcome.result hbase)).1
    obtain ⟨-, values, hdigits, -⟩ := denotes_iff.mp hdenotes
    change List.Forall₂ (IsDigit 16) [103] values at hdigits
    cases hdigits with
    | cons hd _ => obtain ⟨hlt, hc⟩ := hd; omega
  · intro h
    have hdenotes := ((h.2 8).mp (congrArg Outcome.result hdigit)).1
    obtain ⟨-, values, hdigits, -⟩ := denotes_iff.mp hdenotes
    change List.Forall₂ (IsDigit 8) [56] values at hdigits
    cases hdigits with
    | cons hd _ => obtain ⟨hlt, hc⟩ := hd; omega
  · intro h
    rw [Converts, hlowest] at h
    exact Bool.false_ne_true h.1

end Webpp.Casts
