import Webpp.Foundation.Bootstring
import Mathlib.Algebra.Group.Nat.Defs
import Mathlib.Tactic.NormNum

/-!
# Punycode

The instance of Bootstring for labels of domain names: the digits are letters and decimal digits,
and the basic code points stand before the last delimiter. What is encoded is decoded again, in
32 bits, if the label is short enough.
-/

namespace Webpp.Uri.PunycodeRfc

open Bootstring

/-- The parameters of Punycode. -/
def punycode : Parameters where
  base := 36
  tmin := 1
  tmax := 26
  skew := 38
  damp := 700
  initialBias := 72
  initialN := 128
  tmin_pos := Nat.one_pos
  tmin_le_tmax := by norm_num
  tmax_lt_base := by norm_num

/-- `a` to `z`, and `0` to `9` from 26 on. -/
def digitByte (d : ℕ) : UInt8 :=
  if d < 26 then UInt8.ofNat (0x61 + d) else UInt8.ofNat (0x30 + (d - 26))

/-- The value of a digit, in either case. -/
def digitValue (b : UInt8) : Option ℕ :=
  if 0x61 ≤ b ∧ b ≤ 0x7A then some (b.toNat - 0x61)
  else if 0x41 ≤ b ∧ b ≤ 0x5A then some (b.toNat - 0x41)
  else if 0x30 ≤ b ∧ b ≤ 0x39 then some (b.toNat - 0x30 + 26)
  else none

def delimiter : UInt8 := 0x2D

/-- The basic code points, the delimiter if there are any, and the digits. -/
def encodeLabel (label : List ℕ) : List UInt8 :=
  let basic := (basics punycode label).map UInt8.ofNat
  basic ++ (if basic = [] then [] else [delimiter]) ++ (encode punycode label).map digitByte

/-- The parts before and behind the last delimiter. -/
def splitLast : List UInt8 → Option (List UInt8 × List UInt8)
  | [] => none
  | b :: text =>
      match splitLast text with
      | some (before, behind) => some (b :: before, behind)
      | none => if b = delimiter then some ([], text) else none

/-- The code points of a text. The delimiter is consumed only behind basic code points. -/
def decodeLabel (maxint : ℕ) (text : List UInt8) : Option (List ℕ) :=
  let (basic, digits) :=
    match splitLast text with
    | some (b :: before, behind) => (b :: before, behind)
    | _ => ([], text)
  if basic.any (0x80 ≤ ·) then none
  else (digits.mapM digitValue).bind (decode punycode maxint (basic.map UInt8.toNat))

/-! ## Digits -/

theorem digitValue_digitByte : ∀ d < 36, digitValue (digitByte d) = some d := by decide +kernel

theorem digitByte_ne_delimiter : ∀ d < 36, digitByte d ≠ delimiter := by decide +kernel

theorem mem_integerFrom_lt {bias : ℕ} (fuel : ℕ) {k q : ℕ} (hfuel : q ≤ fuel) :
    ∀ d ∈ integerFrom punycode bias fuel k q, d < 36 := by
  induction fuel generalizing k q with
  | zero =>
      intro d hd
      rw [integerFrom, List.mem_singleton] at hd
      omega
  | succ fuel ih =>
      have ht := threshold_pos punycode bias k
      have hb : threshold punycode bias k < 36 := threshold_lt_base punycode bias k
      rw [integerFrom]
      by_cases hlt : q < threshold punycode bias k
      · rw [if_pos hlt]
        intro d hd
        rw [List.mem_singleton.1 hd]
        exact Nat.lt_trans hlt hb
      · rw [if_neg hlt]
        intro d hd
        rcases List.mem_cons.1 hd with rfl | hd
        · have hmod := Nat.mod_lt (q - threshold punycode bias k)
            (show 0 < 36 - threshold punycode bias k by omega)
          have hbase : punycode.base = 36 := rfl
          rw [hbase]
          omega
        · have hquot := quotient_lt punycode.base ht (Nat.not_lt.1 hlt)
          exact ih (by omega) d hd

/-- All digits are below 36. -/
def DigitsBelow (e : Encoder) : Prop := ∀ d ∈ e.digits, d < 36

theorem DigitsBelow.scan {basic m : ℕ} {e : Encoder} (h : DigitsBelow e) (c : ℕ) :
    DigitsBelow (e.scan punycode basic m c) := by
  rw [Encoder.scan]
  split_ifs
  · exact h
  · intro d hd
    rcases List.mem_append.1 hd with hd | hd
    · exact h d hd
    · exact mem_integerFrom_lt e.delta (le_refl _) d hd
  · exact h

theorem DigitsBelow.foldl {basic m : ℕ} (input : List ℕ) {e : Encoder} (h : DigitsBelow e) :
    DigitsBelow (input.foldl (Encoder.scan punycode basic m) e) := by
  induction input generalizing e with
  | nil => exact h
  | cons c input ih => exact ih (h.scan c)

theorem DigitsBelow.encodeFrom {basic : ℕ} {input : List ℕ} (rounds : ℕ) {n : ℕ} {e : Encoder}
    (h : DigitsBelow e) : DigitsBelow (encodeFrom punycode input basic rounds n e) := by
  induction rounds generalizing n e with
  | zero => exact h
  | succ rounds ih =>
      rw [Bootstring.encodeFrom]
      cases (input.filter (n ≤ ·)).min? with
      | none => exact h
      | some m =>
          have hround : DigitsBelow (input.foldl (Encoder.scan punycode basic m)
              { e with delta := e.delta + (m - n) * (e.handled + 1) }) := DigitsBelow.foldl input h
          exact ih hround

theorem mem_encode_lt (label : List ℕ) : ∀ d ∈ encode punycode label, d < 36 :=
  DigitsBelow.encodeFrom label.length (by simp [DigitsBelow, Encoder.start])

theorem mapM_digitValue {digits : List ℕ} (h : ∀ d ∈ digits, d < 36) :
    (digits.map digitByte).mapM digitValue = some digits := by
  induction digits with
  | nil => rfl
  | cons d digits ih =>
      rw [List.map_cons, List.mapM_cons, digitValue_digitByte d (h d List.mem_cons_self),
        ih (fun x hx => h x (List.mem_cons_of_mem _ hx))]
      rfl

theorem delimiter_not_mem {digits : List ℕ} (h : ∀ d ∈ digits, d < 36) :
    delimiter ∉ digits.map digitByte := by
  intro hmem
  obtain ⟨d, hd, heq⟩ := List.mem_map.1 hmem
  exact digitByte_ne_delimiter d (h d hd) heq

/-! ## The last delimiter -/

theorem splitLast_eq_none {text : List UInt8} (h : delimiter ∉ text) : splitLast text = none := by
  induction text with
  | nil => rfl
  | cons b text ih =>
      rw [List.mem_cons, not_or] at h
      rw [splitLast, ih h.2]
      exact if_neg (Ne.symm h.1)

theorem splitLast_append (before : List UInt8) {behind : List UInt8} (h : delimiter ∉ behind) :
    splitLast (before ++ delimiter :: behind) = some (before, behind) := by
  induction before with
  | nil =>
      rw [List.nil_append, splitLast, splitLast_eq_none h]
      exact if_pos rfl
  | cons b before ih => rw [List.cons_append, splitLast, ih]

/-! ## Labels -/

theorem basics_lt {label : List ℕ} {c : ℕ} (h : c ∈ basics punycode label) : c < 128 := by
  rw [basics, List.mem_filter, decide_eq_true_eq] at h
  exact h.2

theorem toNat_ofNat_basic {c : ℕ} (h : c < 128) : (UInt8.ofNat c).toNat = c := by
  rw [UInt8.toNat_ofNat', Nat.mod_eq_of_lt (by omega)]

theorem map_toNat_basics (label : List ℕ) :
    ((basics punycode label).map UInt8.ofNat).map UInt8.toNat = basics punycode label := by
  rw [List.map_map]
  apply (List.map_congr_left _).trans (List.map_id _)
  intro c hc
  exact toNat_ofNat_basic (basics_lt hc)

theorem basics_ascii (label : List ℕ) :
    ((basics punycode label).map UInt8.ofNat).any (0x80 ≤ ·) = false := by
  rw [List.any_eq_false]
  intro b hb
  obtain ⟨c, hc, rfl⟩ := List.mem_map.1 hb
  have hlt := basics_lt hc
  rw [decide_eq_true_eq, UInt8.le_iff_toNat_le, toNat_ofNat_basic hlt]
  exact Nat.not_le.2 hlt

/-- A label is decoded from its encoding, if no delta exceeds `maxint`. -/
theorem decodeLabel_encodeLabel {maxint : ℕ} {label : List ℕ}
    (hmax : ∀ c ∈ label, 36 * deltaBound label c ≤ maxint) :
    decodeLabel maxint (encodeLabel label) = some label := by
  have hdecode : decode punycode maxint (basics punycode label) (encode punycode label) =
      some label := decode_encode hmax
  have hdigits := mem_encode_lt label
  have hdelimiter := delimiter_not_mem hdigits
  have hascii := basics_ascii label
  have hbasic := map_toNat_basics label
  rw [decodeLabel, encodeLabel]
  cases hlist : (basics punycode label).map UInt8.ofNat with
  | nil =>
      rw [hlist] at hbasic
      rw [if_pos rfl, List.append_nil, List.nil_append, splitLast_eq_none hdelimiter]
      simp only [List.any_nil, Bool.false_eq_true, if_false]
      rw [mapM_digitValue hdigits, Option.bind_some, hbasic, hdecode]
  | cons b before =>
      rw [hlist] at hascii hbasic
      rw [if_neg (List.cons_ne_nil _ _), List.append_assoc, List.singleton_append,
        splitLast_append _ hdelimiter]
      simp only [hascii, Bool.false_eq_true, if_false]
      rw [mapM_digitValue hdigits, Option.bind_some, hbasic, hdecode]

end Webpp.Uri.PunycodeRfc
