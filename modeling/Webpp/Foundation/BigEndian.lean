import Mathlib.Data.List.GetD

/-!
# Bits of bytes

The bits of a list of bytes, from the most significant one of the first byte on, and the words
that have the same bits.
-/

namespace Webpp.BigEndian

variable {w i s : ℕ} {as bs : List UInt8}

/-- The bit with so many bits in front of it; behind the last byte there are zeros. -/
def bit (bytes : List UInt8) (i : ℕ) : Bool := (bytes.getD (i / 8) 0).toBitVec.getMsbD (i % 8)

theorem bit_cons_lt (b : UInt8) (bs : List UInt8) (h : i < 8) :
    bit (b :: bs) i = b.toBitVec.getMsbD i := by
  rw [bit, Nat.div_eq_of_lt h, Nat.mod_eq_of_lt h]
  rfl

theorem bit_cons_add (b : UInt8) (bs : List UInt8) (i : ℕ) : bit (b :: bs) (i + 8) = bit bs i := by
  rw [bit, Nat.add_div_right i (by decide), Nat.add_mod_right]
  rfl

theorem bit_of_le (h : 8 * bs.length ≤ i) : bit bs i = false := by
  have hbyte : bs.getD (i / 8) 0 = 0 := by
    rw [List.getD_eq_getElem?_getD, List.getElem?_eq_none (by omega)]
    rfl
  rw [bit, hbyte]
  exact BitVec.getMsbD_zero

theorem bit_append (as bs : List UInt8) (i : ℕ) :
    bit (as ++ bs) i = if i < 8 * as.length then bit as i else bit bs (i - 8 * as.length) := by
  by_cases h : i < 8 * as.length
  · rw [if_pos h, bit, bit, List.getD_append _ _ _ _ (by omega)]
  · have hdiv : (i - 8 * as.length) / 8 = i / 8 - as.length := by omega
    have hmod : (i - 8 * as.length) % 8 = i % 8 := by omega
    rw [if_neg h, bit, bit, List.getD_append_right _ _ _ _ (by omega), hdiv, hmod]

/-- Bytes are equal that have the same bits. -/
theorem ext_bit (hlen : as.length = bs.length) (h : ∀ i < 8 * as.length, bit as i = bit bs i) :
    as = bs := by
  induction as generalizing bs with
  | nil => exact (List.length_eq_zero_iff.mp hlen.symm).symm
  | cons a as ih =>
    cases bs with
    | nil => simp at hlen
    | cons b bs =>
      rw [List.length_cons] at h
      have hhead : a = b := by
        refine UInt8.toBitVec_inj.mp (BitVec.eq_of_getMsbD_eq fun i hi => ?_)
        have hbit := h i (by omega)
        rwa [bit_cons_lt a as hi, bit_cons_lt b bs hi] at hbit
      have htail : as = bs := by
        refine ih (by simpa using hlen) fun i hi => ?_
        have hbit := h (i + 8) (by omega)
        rwa [bit_cons_add, bit_cons_add] at hbit
      rw [hhead, htail]

theorem eq_iff_bit (hlen : as.length = bs.length) :
    as = bs ↔ ∀ i < 8 * as.length, bit as i = bit bs i :=
  ⟨fun heq _ _ => heq ▸ rfl, ext_bit hlen⟩

theorem bit_replicate_zero (n i : ℕ) : bit (List.replicate n 0) i = false := by
  rw [bit, List.getD_eq_getElem?_getD, List.getElem?_getD_replicate_default_eq]
  exact BitVec.getMsbD_zero

theorem bit_take {n : ℕ} (hi : i < 8 * n) (bs : List UInt8) : bit (bs.take n) i = bit bs i := by
  rw [bit, bit, List.getD_eq_getElem?_getD, List.getD_eq_getElem?_getD,
    List.getElem?_take_of_lt (by omega)]

/-! ## Words -/

/-- The word whose last bytes these are. -/
def place (w : ℕ) : List UInt8 → BitVec w
  | [] => 0
  | b :: bs => b.toBitVec.setWidth w <<< (8 * bs.length) ||| place w bs

theorem getMsbD_place (h : 8 * bs.length ≤ w) (hi : i < w) :
    (place w bs).getMsbD i =
      (decide (w - 8 * bs.length ≤ i) && bit bs (i - (w - 8 * bs.length))) := by
  induction bs with
  | nil =>
    rw [List.length_nil, decide_eq_false (by omega)]
    exact BitVec.getMsbD_zero
  | cons b bs ih =>
    rw [List.length_cons] at h ⊢
    rw [place, BitVec.getMsbD_or, BitVec.getMsbD_shiftLeft, BitVec.getMsbD_setWidth, ih (by omega)]
    by_cases hfront : i < w - 8 * (bs.length + 1)
    · rw [decide_eq_false (by omega), decide_eq_false (by omega), decide_eq_false (by omega)]
      rfl
    · rw [decide_eq_true (show w - 8 * (bs.length + 1) ≤ i by omega),
        decide_eq_true (show w - 8 ≤ i + 8 * bs.length by omega), Bool.true_and, Bool.true_and]
      by_cases hbyte : i < w - 8 * bs.length
      · rw [decide_eq_false (by omega), Bool.false_and, Bool.or_false,
          bit_cons_lt b bs (by omega)]
        congr 1
        omega
      · rw [decide_eq_true (by omega), Bool.true_and, BitVec.getMsbD_of_ge _ _ (by omega),
          Bool.false_or, show i - (w - 8 * (bs.length + 1)) = i - (w - 8 * bs.length) + 8 by omega,
          bit_cons_add]

/-- A word has the bits of its bytes. -/
theorem getMsbD_place_whole (h : 8 * bs.length = w) (hi : i < w) :
    (place w bs).getMsbD i = bit bs i := by
  rw [getMsbD_place (by omega) hi, h, Nat.sub_self, decide_eq_true (Nat.zero_le i), Nat.sub_zero,
    Bool.true_and]

/-- The byte of a word that has `s` bits behind it. -/
theorem getMsbD_byte (x : BitVec w) {j : ℕ} (h : s + 8 ≤ w) (hj : j < 8) :
    ((x >>> s).setWidth 8).getMsbD j = x.getMsbD (w - s - 8 + j) := by
  rw [BitVec.getMsbD_setWidth, BitVec.getMsbD_ushiftRight, decide_eq_true (by omega),
    decide_eq_true (by omega), decide_eq_false (by omega)]
  rw [Bool.true_and, Bool.true_and, Bool.not_false, Bool.true_and]
  congr 1
  omega

/-! ## Bytes of a word -/

theorem bit_map_range {n : ℕ} (f : ℕ → UInt8) (hi : i < 8 * n) :
    bit ((List.range n).map f) i = (f (i / 8)).toBitVec.getMsbD (i % 8) := by
  rw [bit, List.getD_eq_getElem?_getD, List.getElem?_map, List.getElem?_range (by omega)]
  rfl

/-- The last `n` bytes of a word. -/
def bytesOf (n : ℕ) (x : BitVec w) : List UInt8 :=
  (List.range n).map fun j => ⟨(x >>> (8 * (n - 1 - j))).setWidth 8⟩

theorem and_byteOnes (x : BitVec 8) : x &&& 255#8 = x := BitVec.and_allOnes

/-- The bytes have the bits of the word. -/
theorem bit_bytesOf {n : ℕ} (x : BitVec w) (h : 8 * n = w) (hi : i < w) :
    bit (bytesOf n x) i = x.getMsbD i := by
  rw [bytesOf, bit_map_range _ (by omega), getMsbD_byte x (by omega) (Nat.mod_lt i (by decide))]
  congr 1
  omega

/-- The `n` bytes from a place on. -/
def window (bytes : List UInt8) (start n : ℕ) : List UInt8 :=
  (List.range n).map fun j => bytes.getD (start + j) 0

theorem bit_window (bytes : List UInt8) (start : ℕ) {n : ℕ} (hi : i < 8 * n) :
    bit (window bytes start n) i = bit bytes (8 * start + i) := by
  have hdiv : (8 * start + i) / 8 = start + i / 8 := by omega
  have hmod : (8 * start + i) % 8 = i % 8 := by omega
  rw [window, bit_map_range _ hi, bit, hdiv, hmod]

end Webpp.BigEndian
