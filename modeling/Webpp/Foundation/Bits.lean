import Mathlib.Data.List.Nodup
import Mathlib.Data.List.Range
import Mathlib.Data.Nat.Bitwise

/-!
# Masks of bits

The mask of the `k` bits above the lowest `n`, applied to a number of `n + k` bits: conjunction
clears the low part, and disjunction fills the high one.

The highest bit of a word is the one that `bitFloor` keeps, and the first one in the list
`setBits` of its bits; what is left of the list is the list of the word without that bit.
-/

namespace HighMask

variable {x n k : ℕ}

/-- `k` ones above `n` zeros -/
abbrev highMask (n k : ℕ) : ℕ := 2 ^ n * (2 ^ k - 1)

theorem highMask_div (n k : ℕ) : highMask n k / 2 ^ n = 2 ^ k - 1 :=
  Nat.mul_div_cancel_left _ (Nat.two_pow_pos n)

theorem highMask_mod (n k : ℕ) : highMask n k % 2 ^ n = 0 := Nat.mul_mod_right _ _

theorem high_lt (h : x < 2 ^ (n + k)) : x / 2 ^ n < 2 ^ k := by
  rw [Nat.div_lt_iff_lt_mul (Nat.two_pow_pos n), Nat.mul_comm, ← Nat.pow_add]
  exact h

theorem or_ones (h : x < 2 ^ k) : x ||| 2 ^ k - 1 = 2 ^ k - 1 := by
  refine Nat.eq_of_testBit_eq fun i => ?_
  rw [Nat.testBit_or, Nat.testBit_two_pow_sub_one]
  by_cases hi : i < k
  · simp [hi]
  · have hle : 2 ^ k ≤ 2 ^ i := Nat.pow_le_pow_right (by decide) (Nat.le_of_not_lt hi)
    simp [hi, Nat.testBit_lt_two_pow (Nat.lt_of_lt_of_le h hle)]

theorem and_highMask (h : x < 2 ^ (n + k)) : x &&& highMask n k = 2 ^ n * (x / 2 ^ n) := by
  have hdiv : (x &&& highMask n k) / 2 ^ n = x / 2 ^ n := by
    rw [Nat.and_div_two_pow, highMask_div]
    exact Nat.and_two_pow_sub_one_of_lt_two_pow (high_lt h)
  have hmod : (x &&& highMask n k) % 2 ^ n = 0 := by
    rw [Nat.and_mod_two_pow, highMask_mod, Nat.and_zero]
  rw [← Nat.div_add_mod (x &&& highMask n k) (2 ^ n), hdiv, hmod, Nat.add_zero]

theorem or_highMask (h : x < 2 ^ (n + k)) :
    x ||| highMask n k = highMask n k + x % 2 ^ n := by
  have hdiv : (x ||| highMask n k) / 2 ^ n = 2 ^ k - 1 := by
    rw [Nat.or_div_two_pow, highMask_div, or_ones (high_lt h)]
  have hmod : (x ||| highMask n k) % 2 ^ n = x % 2 ^ n := by
    rw [Nat.or_mod_two_pow, highMask_mod, Nat.or_zero]
  rw [← Nat.div_add_mod (x ||| highMask n k) (2 ^ n), hdiv, hmod]

end HighMask

namespace HighestBit

variable {w : ℕ} {x : BitVec w} {i j : ℕ}

/-- The largest power of two that is not above `x`, and zero for zero. -/
def bitFloor (x : BitVec w) : BitVec w := if x = 0#w then 0#w else BitVec.twoPow w x.toNat.log2

/-- The bits that are set, the highest one first. -/
def setBits (x : BitVec w) : List ℕ := (List.range w).reverse.filter x.getLsbD

/-- The word without the bit. -/
def clearBit (x : BitVec w) (i : ℕ) : BitVec w := x &&& ~~~BitVec.twoPow w i

/-- The bit is set, and no higher one is. -/
structure IsHighest (x : BitVec w) (i : ℕ) : Prop where
  set : x.getLsbD i = true
  last : ∀ j, i < j → x.getLsbD j = false

theorem mem_setBits : i ∈ setBits x ↔ x.getLsbD i = true := by
  rw [setBits, List.mem_filter, List.mem_reverse, List.mem_range]
  exact and_iff_right_of_imp BitVec.lt_of_getLsbD

theorem nodup_setBits (x : BitVec w) : (setBits x).Nodup :=
  (List.nodup_reverse.mpr List.nodup_range).filter _

theorem setBits_eq_nil_iff : setBits x = [] ↔ x = 0#w := by
  constructor
  · intro h
    refine BitVec.eq_of_getLsbD_eq fun i _ => ?_
    rw [BitVec.getLsbD_zero, ← Bool.not_eq_true, ← mem_setBits, h]
    exact List.not_mem_nil
  · rintro rfl
    refine List.eq_nil_iff_forall_not_mem.mpr fun i hmem => ?_
    rw [mem_setBits, BitVec.getLsbD_zero] at hmem
    exact Bool.false_ne_true hmem

theorem getLsbD_clearBit : (clearBit x i).getLsbD j = (x.getLsbD j && decide (j ≠ i)) := by
  rw [clearBit, BitVec.getLsbD_and, BitVec.getLsbD_not, BitVec.getLsbD_twoPow]
  by_cases hx : x.getLsbD j = true
  · have hj : j < w := BitVec.lt_of_getLsbD hx
    simp only [hx, hj, Bool.true_and, decide_true, ne_eq, decide_not]
    by_cases hij : i = j
    · subst hij
      simp [hj]
    · simp [hij, Ne.symm hij]
  · simp [Bool.eq_false_iff.mpr hx]

theorem IsHighest.toNat_lt (h : IsHighest x i) : x.toNat < 2 ^ (i + 1) := by
  refine Nat.lt_pow_two_of_testBit _ fun j hj => ?_
  rw [BitVec.testBit_toNat]
  exact h.last j hj

theorem IsHighest.le_toNat (h : IsHighest x i) : 2 ^ i ≤ x.toNat := by
  refine Nat.ge_two_pow_of_testBit ?_
  rw [BitVec.testBit_toNat]
  exact h.set

theorem IsHighest.ne_zero (h : IsHighest x i) : x ≠ 0#w := by
  rintro rfl
  have hset := h.set
  rw [BitVec.getLsbD_zero] at hset
  exact Bool.false_ne_true hset

theorem IsHighest.bitFloor_eq (h : IsHighest x i) : bitFloor x = BitVec.twoPow w i := by
  have hpos : x.toNat ≠ 0 := by
    have hle := h.le_toNat
    have htwo := Nat.two_pow_pos i
    omega
  rw [bitFloor, if_neg h.ne_zero, (Nat.log2_eq_iff hpos).mpr ⟨h.le_toNat, h.toNat_lt⟩]

theorem exists_isHighest (h : x ≠ 0#w) : ∃ i, IsHighest x i := by
  have hpos : x.toNat ≠ 0 := fun hzero => h (BitVec.eq_of_toNat_eq hzero)
  refine ⟨x.toNat.log2, ?_, fun j hj => ?_⟩
  · rw [← BitVec.testBit_toNat]
    exact Nat.testBit_log2 hpos
  · rw [← BitVec.testBit_toNat]
    exact Nat.testBit_lt_two_pow ((Nat.log2_lt hpos).mp hj)

theorem filter_range_reverse {p q : ℕ → Bool} {n : ℕ} (hi : i < n) (hp : p i = true)
    (hlast : ∀ j, i < j → p j = false) (hq : ∀ j, q j = (p j && decide (j ≠ i))) :
    (List.range n).reverse.filter p = i :: (List.range n).reverse.filter q := by
  induction n with
  | zero => exact absurd hi (Nat.not_lt_zero i)
  | succ n ih =>
    rw [List.range_succ, List.reverse_append, List.reverse_singleton, List.singleton_append]
    rcases Nat.lt_succ_iff_lt_or_eq.mp hi with hlt | rfl
    · have hpn : p n = false := hlast n hlt
      have hqn : q n = false := by rw [hq, hpn, Bool.false_and]
      rw [List.filter_cons_of_neg (by simp [hpn]), List.filter_cons_of_neg (by simp [hqn]), ih hlt]
    · have hqi : q i = false := by simp [hq]
      rw [List.filter_cons_of_pos hp, List.filter_cons_of_neg (by simp [hqi])]
      refine congrArg (i :: ·) (List.filter_congr fun j hj => ?_)
      rw [List.mem_reverse, List.mem_range] at hj
      simp [hq, Nat.ne_of_lt hj]

theorem IsHighest.setBits_eq (h : IsHighest x i) : setBits x = i :: setBits (clearBit x i) :=
  filter_range_reverse (BitVec.lt_of_getLsbD h.set) h.set h.last fun _ => getLsbD_clearBit

end HighestBit
