import Mathlib.Algebra.Order.Ring.Defs
import Mathlib.Algebra.Order.Ring.Nat
import Mathlib.Data.Nat.ModEq

/-!
# Numerals

A numeral is read digit by digit: the value so far is multiplied by the base, and the digit is
added. A predicate may hold of all the products and sums on the way.

Digits are shifted through a register of a fixed number of places, whose lowest place stays free;
what is shifted out is lost. A list is written with its last digit first. A short list of
digits that are not zero is told from every other such list, however long: `code_eq_iff`.
-/

/-! ## Values -/

namespace Webpp.Horner

variable {R : Type*} [Semiring R]

/-- The value of digits behind a value that has been read. -/
def valueFrom (b n : R) (ds : List R) : R := ds.foldl (fun n d => n * b + d) n

/-- The products and the sums on the way to the value have the property. -/
def Stays (P : R → Prop) (b n : R) : List R → Prop
  | [] => True
  | d :: ds => P (n * b) ∧ P (n * b + d) ∧ Stays P b (n * b + d) ds

theorem Stays.value {P : R → Prop} {b n : R} {ds : List R} (h : Stays P b n ds) (hne : ds ≠ []) :
    P (valueFrom b n ds) := by
  induction ds generalizing n with
  | nil => exact absurd rfl hne
  | cons d ds ih =>
    obtain ⟨-, hsum, hrest⟩ := h
    cases ds with
    | nil => exact hsum
    | cons e ds => exact ih hrest (List.cons_ne_nil e ds)

section Order

variable [PartialOrder R] [IsOrderedRing R] {b n : R} {ds : List R}

theorem le_valueFrom (hb : 1 ≤ b) (hn : 0 ≤ n) (hds : ∀ d ∈ ds, 0 ≤ d) : n ≤ valueFrom b n ds := by
  induction ds generalizing n with
  | nil => exact le_rfl
  | cons d ds ih =>
    obtain ⟨hd, hds⟩ := List.forall_mem_cons.mp hds
    have hproduct : n ≤ n * b := le_mul_of_one_le_right hn hb
    have hsum : n * b ≤ n * b + d := le_add_of_nonneg_right hd
    exact (hproduct.trans hsum).trans (ih (hn.trans (hproduct.trans hsum)) hds)

/-- With digits that are not negative, nothing on the way is above the value. -/
theorem stays_of_le {P : R → Prop} (hb : 1 ≤ b) (hn : 0 ≤ n) (hds : ∀ d ∈ ds, 0 ≤ d)
    (hP : ∀ x, 0 ≤ x → x ≤ valueFrom b n ds → P x) : Stays P b n ds := by
  induction ds generalizing n with
  | nil => trivial
  | cons d ds ih =>
    obtain ⟨hd, hds⟩ := List.forall_mem_cons.mp hds
    have hproduct : 0 ≤ n * b := hn.trans (le_mul_of_one_le_right hn hb)
    have hsum : n * b ≤ n * b + d := le_add_of_nonneg_right hd
    have hle := le_valueFrom hb (hproduct.trans hsum) hds
    exact ⟨hP _ hproduct (hsum.trans hle), hP _ (hproduct.trans hsum) hle,
      ih (hproduct.trans hsum) hds hP⟩

end Order

end Webpp.Horner

/-! ## Shift registers -/

namespace ShiftRegister

/-- The register of `width` places to the base `base` behind the digits. -/
def code (base width : ℕ) : List ℕ → ℕ
  | [] => 0
  | d :: digits => (code base width digits + d) * base % base ^ width

/-- A digit that is not zero. -/
def IsDigit (base d : ℕ) : Prop := 0 < d ∧ d < base

section Places

variable {base width : ℕ}

theorem code_dvd (h : 0 < width) (digits : List ℕ) : base ∣ code base width digits := by
  cases digits with
  | nil => exact Nat.dvd_zero base
  | cons d digits =>
      rw [code]
      exact (Nat.dvd_mod_iff (dvd_pow_self base (Nat.pos_iff_ne_zero.mp h))).mpr
        (Nat.dvd_mul_left base _)

theorem code_cons_mod {places : ℕ} (h : places + 1 ≤ width) (d : ℕ) (digits : List ℕ) :
    code base width (d :: digits) % base ^ (places + 1) =
      (code base width digits + d) % base ^ places * base := by
  rw [code, Nat.mod_mod_of_dvd _ (pow_dvd_pow base h), pow_succ, Nat.mul_mod_mul_right]

theorem code_add_mod {places : ℕ} (hwidth : 0 < width) (hplaces : 0 < places) {d : ℕ}
    (hd : d < base) (digits : List ℕ) :
    (code base width digits + d) % base ^ places % base = d := by
  have hfree : base ∣ code base width digits := code_dvd hwidth digits
  obtain ⟨k, hk⟩ := hfree
  rw [Nat.mod_mod_of_dvd _ (dvd_pow_self base (Nat.pos_iff_ne_zero.mp hplaces)), hk,
    Nat.mul_add_mod, Nat.mod_eq_of_lt hd]

theorem eq_nil_of_code_mod {places : ℕ} (hplaces : 2 ≤ places) (hwidth : places ≤ width)
    {digits : List ℕ} (hdigits : ∀ d ∈ digits, IsDigit base d)
    (h : code base width digits % base ^ places = 0) : digits = [] := by
  cases digits with
  | nil => rfl
  | cons d digits =>
      obtain ⟨places, rfl⟩ := Nat.exists_eq_add_of_le' (Nat.le_trans (Nat.le_succ 1) hplaces)
      obtain ⟨hd, -⟩ := List.forall_mem_cons.mp hdigits
      rw [code_cons_mod hwidth] at h
      have hbase : base ≠ 0 := Nat.ne_of_gt (Nat.lt_trans hd.1 hd.2)
      have hlow := (Nat.mul_eq_zero.mp h).resolve_right hbase
      have hlast := code_add_mod (Nat.lt_of_lt_of_le Nat.zero_lt_two (hplaces.trans hwidth))
        (Nat.le_of_succ_le_succ hplaces) hd.2 digits
      rw [hlow, Nat.zero_mod] at hlast
      exact absurd hlast (Nat.ne_of_lt hd.1)

/-- Where the lower places agree, and there are more of them than digits in one of the lists, the
lists are the same. -/
theorem eq_of_code_mod {digits short : List ℕ} {places : ℕ} (hplaces : short.length + 2 ≤ places)
    (hwidth : places ≤ width) (hdigits : ∀ d ∈ digits, IsDigit base d)
    (hshort : ∀ d ∈ short, IsDigit base d)
    (h : code base width digits % base ^ places = code base width short % base ^ places) :
    digits = short := by
  induction short generalizing digits places with
  | nil =>
      rw [code, Nat.zero_mod] at h
      exact eq_nil_of_code_mod hplaces hwidth hdigits h
  | cons e short ih =>
      obtain ⟨he, hrestShort⟩ := List.forall_mem_cons.mp hshort
      rw [List.length_cons] at hplaces
      cases digits with
      | nil =>
          rw [code, Nat.zero_mod] at h
          have hnil := eq_nil_of_code_mod (Nat.le_trans (Nat.le_add_left 2 _) hplaces) hwidth
            hshort h.symm
          cases hnil
      | cons d digits =>
          obtain ⟨hd, hdigits⟩ := List.forall_mem_cons.mp hdigits
          obtain ⟨places, rfl⟩ := Nat.exists_eq_add_of_le' (Nat.le_trans (Nat.le_add_left 1 _)
            hplaces)
          rw [code_cons_mod hwidth, code_cons_mod hwidth] at h
          have hbase : 0 < base := Nat.lt_trans hd.1 hd.2
          have hlow := Nat.eq_of_mul_eq_mul_right hbase h
          have hwidth' : 0 < width := Nat.lt_of_lt_of_le (Nat.succ_pos _) hwidth
          have hpositive : 0 < places := by omega
          have hlast : d = e := by
            rw [← code_add_mod hwidth' hpositive hd.2 digits, hlow,
              code_add_mod hwidth' hpositive he.2]
          subst hlast
          have hrest : code base width digits % base ^ places =
              code base width short % base ^ places := Nat.ModEq.add_right_cancel' d hlow
          rw [ih (by omega) (Nat.le_of_succ_le hwidth) hdigits hrestShort hrest]

/-- A list of at least two digits less than there are places has its code for itself. -/
theorem code_eq_iff {digits short : List ℕ} (hlength : short.length + 2 ≤ width)
    (hdigits : ∀ d ∈ digits, IsDigit base d) (hshort : ∀ d ∈ short, IsDigit base d) :
    code base width digits = code base width short ↔ digits = short :=
  ⟨fun h => eq_of_code_mod hlength (Nat.le_refl width) hdigits hshort (by rw [h]),
    fun h => by rw [h]⟩

end Places

end ShiftRegister
