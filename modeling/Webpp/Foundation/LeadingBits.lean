import Webpp.Foundation.BigEndian
import Mathlib.Algebra.Ring.Nat

/-!
# Leading bits

The bits of a vector are counted from the most significant one on. A mask has ones in front and
zeros behind them; two vectors agree on their leading bits, if and only if a mask of so many bits
makes them equal. A single bit that moves to the right finds out how many leading ones there are,
and a vector that moves to the left loses them.

Bytes are a mask together, if and only if each of them is one, and a byte that is not zero has only
full bytes in front of it.
-/

namespace Webpp.LeadingBits

variable {w : ℕ} {x y m : BitVec w} {n k : ℕ}

/-- Ones in the first `n` bits, and zeros behind them. -/
structure IsMask (x : BitVec w) (n : ℕ) : Prop where
  le : n ≤ w
  bit : ∀ i < w, x.getMsbD i = decide (i < n)

/-- The first `n` bits of both are the same. -/
def Agree (n : ℕ) (x y : BitVec w) : Prop := ∀ i < n, x.getMsbD i = y.getMsbD i

theorem isMask_zero_iff : IsMask x 0 ↔ x = 0 := by
  constructor
  · intro h
    refine BitVec.eq_of_getMsbD_eq fun i hi => ?_
    rw [h.bit i hi, decide_eq_false (Nat.not_lt_zero i)]
    exact BitVec.getMsbD_zero.symm
  · rintro rfl
    exact ⟨Nat.zero_le w, fun i _ => BitVec.getMsbD_zero.trans
      (decide_eq_false (Nat.not_lt_zero i)).symm⟩

theorem isMask_full_iff : IsMask x w ↔ x = BitVec.allOnes w := by
  constructor
  · intro h
    refine BitVec.eq_of_getMsbD_eq fun i hi => ?_
    rw [h.bit i hi, BitVec.getMsbD_allOnes]
  · rintro rfl
    exact ⟨Nat.le_refl w, fun i _ => BitVec.getMsbD_allOnes⟩

theorem isMask_shift (h : n ≤ w) : IsMask (BitVec.allOnes w <<< (w - n)) n where
  le := h
  bit i hi := by
    rw [BitVec.getMsbD_shiftLeft, BitVec.getMsbD_allOnes, decide_eq_decide]
    omega

theorem IsMask.unique {n' : ℕ} (h : IsMask x n) (h' : IsMask x n') : n = n' := by
  have hle := h.le
  have hle' := h'.le
  obtain hlt | heq | hlt := Nat.lt_trichotomy n n'
  · have hbit := (h.bit n (by omega)).symm.trans (h'.bit n (by omega))
    rw [decide_eq_decide] at hbit
    omega
  · exact heq
  · have hbit := (h.bit n' (by omega)).symm.trans (h'.bit n' (by omega))
    rw [decide_eq_decide] at hbit
    omega

theorem IsMask.getMsbD_and (h : IsMask m n) (x : BitVec w) {i : ℕ} (hi : i < w) :
    (x &&& m).getMsbD i = (decide (i < n) && x.getMsbD i) := by
  rw [BitVec.getMsbD_and, h.bit i hi, Bool.and_comm]

/-- Under a mask two vectors are equal, if and only if they agree on its ones. -/
theorem IsMask.and_eq_iff (h : IsMask m n) : x &&& m = y &&& m ↔ Agree n x y := by
  constructor
  · intro heq i hi
    have hiw := Nat.lt_of_lt_of_le hi h.le
    have hbit := congrArg (BitVec.getMsbD · i) heq
    rwa [h.getMsbD_and x hiw, h.getMsbD_and y hiw, decide_eq_true hi, Bool.true_and,
      Bool.true_and] at hbit
  · intro hagree
    refine BitVec.eq_of_getMsbD_eq fun i hi => ?_
    rw [h.getMsbD_and x hi, h.getMsbD_and y hi]
    by_cases hin : i < n
    · rw [hagree i hin]
    · rw [decide_eq_false hin, Bool.false_and, Bool.false_and]

/-- Two vectors agree on their leading bits, if and only if these are the same number. -/
theorem agree_iff_div (hn : n ≤ w) :
    Agree n x y ↔ x.toNat / 2 ^ (w - n) = y.toNat / 2 ^ (w - n) := by
  rw [← Nat.shiftRight_eq_div_pow, ← Nat.shiftRight_eq_div_pow, ← BitVec.toNat_ushiftRight,
    ← BitVec.toNat_ushiftRight, BitVec.toNat_inj]
  constructor
  · intro hagree
    refine BitVec.eq_of_getMsbD_eq fun i hi => ?_
    rw [BitVec.getMsbD_ushiftRight, BitVec.getMsbD_ushiftRight]
    by_cases hout : i < w - n
    · rw [decide_eq_true hout, Bool.not_true, Bool.false_and, Bool.false_and]
    · rw [hagree (i - (w - n)) (by omega)]
  · intro heq i hi
    have hbit := congrArg (BitVec.getMsbD · (w - n + i)) heq
    rwa [BitVec.getMsbD_ushiftRight, BitVec.getMsbD_ushiftRight, Nat.add_sub_cancel_left,
      decide_eq_true (by omega), decide_eq_false (by omega), Bool.not_false, Bool.true_and,
      Bool.true_and, Bool.true_and, Bool.true_and] at hbit

/-! ## Leading ones -/

/-- A bit moves to the right as long as it finds ones. The count, and whether the bit has left the
vector. -/
def onesLoop (x : BitVec w) : (fuel : ℕ) → (mask : BitVec w) → (count : ℕ) → ℕ × Bool
  | 0, _, count => (count, true)
  | fuel + 1, mask, count =>
    if mask = 0 then (count, true)
    else if x &&& mask = mask then onesLoop x fuel (mask >>> 1) (count + 1)
    else (count, false)

/-- The first bit, after `k` steps to the right. -/
def bitAt (w k : ℕ) : BitVec w := BitVec.twoPow w (w - 1) >>> k

theorem getMsbD_bitAt {i : ℕ} (hi : i < w) : (bitAt w k).getMsbD i = decide (i = k) := by
  rw [bitAt, BitVec.getMsbD_ushiftRight, BitVec.getMsbD_twoPow, decide_eq_true hi, Bool.true_and,
    decide_eq_true (show w - 1 < w by omega), Bool.true_and]
  by_cases hk : i < k
  · rw [decide_eq_true hk, decide_eq_false (show ¬ i = k by omega)]
    rfl
  · rw [decide_eq_false hk, Bool.not_false, Bool.true_and, decide_eq_decide]
    omega

theorem bitAt_shift (w k : ℕ) : bitAt w k >>> 1 = bitAt w (k + 1) := by
  rw [bitAt, bitAt, BitVec.shiftRight_add]

theorem bitAt_ne_zero (hk : k < w) : bitAt w k ≠ 0 := by
  intro hzero
  have hbit := getMsbD_bitAt (k := k) hk
  rw [hzero] at hbit
  simp at hbit

theorem and_bitAt (hk : k < w) : x &&& bitAt w k = bitAt w k ↔ x.getMsbD k = true := by
  constructor
  · intro heq
    have hbit := congrArg (BitVec.getMsbD · k) heq
    rwa [BitVec.getMsbD_and, getMsbD_bitAt hk, decide_eq_true rfl, Bool.and_true] at hbit
  · intro hbit
    refine BitVec.eq_of_getMsbD_eq fun i hi => ?_
    rw [BitVec.getMsbD_and, getMsbD_bitAt hi]
    by_cases hik : i = k
    · rw [hik, hbit, Bool.true_and]
    · rw [decide_eq_false hik, Bool.and_false]

/-- From the place `k` on, the loop counts the ones up to the first zero. -/
theorem onesLoop_of_ones (hk : k ≤ n) (hn : n ≤ w) (hones : ∀ i, k ≤ i → i < n → x.getMsbD i = true)
    (hzero : n < w → x.getMsbD n = false) (count : ℕ) :
    onesLoop x (w - k) (bitAt w k) count = (count + (n - k), decide (n = w)) := by
  generalize hfuel : w - k = fuel
  induction fuel generalizing k count with
  | zero =>
    have hkn : k = n ∧ n = w := by omega
    rw [onesLoop, decide_eq_true hkn.2, hkn.1, Nat.sub_self, Nat.add_zero]
  | succ fuel ih =>
    have hkw : k < w := by omega
    rw [onesLoop, if_neg (bitAt_ne_zero hkw)]
    by_cases hlast : k = n
    · have hbit : ¬ x &&& bitAt w k = bitAt w k := by
        rw [and_bitAt hkw, hlast, hzero (by omega)]
        exact Bool.false_ne_true
      rw [if_neg hbit, decide_eq_false (by omega), hlast, Nat.sub_self, Nat.add_zero]
    · have hbit : x &&& bitAt w k = bitAt w k :=
        (and_bitAt hkw).mpr (hones k (Nat.le_refl k) (by omega))
      rw [if_pos hbit, bitAt_shift, ih (by omega) (fun i hi => hones i (by omega)) _ (by omega),
        show count + 1 + (n - (k + 1)) = count + (n - k) by omega]

/-- Of a mask, the loop counts all the ones. -/
theorem IsMask.onesLoop (h : IsMask x n) (count : ℕ) :
    onesLoop x w (bitAt w 0) count = (count + n, decide (n = w)) := by
  refine onesLoop_of_ones (Nat.zero_le n) h.le (fun i _ hi => ?_) (fun hn => ?_) count
  · rw [h.bit i (Nat.lt_of_lt_of_le hi h.le), decide_eq_true hi]
  · rw [h.bit n hn, decide_eq_false (Nat.lt_irrefl n)]

/-! ## Shifting the ones out -/

/-- The vector moves to the left as long as its first bit is a one. -/
def dropOnes : (fuel : ℕ) → (x : BitVec w) → BitVec w
  | 0, x => x
  | fuel + 1, x => if x &&& bitAt w 0 = bitAt w 0 then dropOnes fuel (x <<< 1) else x

theorem dropOnes_of_zero (hfirst : x.getMsbD 0 = false) (fuel : ℕ) : dropOnes fuel x = x := by
  cases fuel with
  | zero => rfl
  | succ fuel =>
    by_cases hw : 0 < w
    · rw [dropOnes, if_neg]
      rw [and_bitAt hw, hfirst]
      exact Bool.false_ne_true
    · exact BitVec.eq_of_getMsbD_eq fun i hi => absurd hi (by omega)

/-- With only zeros behind the first `fuel` bits, nothing is left of a mask, and something of
every other vector. -/
theorem dropOnes_eq_zero_iff_of_zeros {fuel : ℕ} (hfuel : fuel ≤ w)
    (hzeros : ∀ i, fuel ≤ i → x.getMsbD i = false) :
    dropOnes fuel x = 0 ↔ ∃ n ≤ fuel, ∀ i < w, x.getMsbD i = decide (i < n) := by
  induction fuel generalizing x with
  | zero =>
    have hnone : ∀ i < w, x.getMsbD i = decide (i < 0) := fun i _ =>
      (hzeros i (Nat.zero_le i)).trans (decide_eq_false (Nat.not_lt_zero i)).symm
    exact iff_of_true (isMask_zero_iff.mp ⟨Nat.zero_le w, hnone⟩) ⟨0, Nat.le_refl 0, hnone⟩
  | succ fuel ih =>
    have hshift : ∀ i, (x <<< 1).getMsbD i = x.getMsbD (i + 1) := fun i =>
      BitVec.getMsbD_shiftLeft x 1
    rw [dropOnes]
    by_cases hfirst : x.getMsbD 0 = true
    · rw [if_pos ((and_bitAt (by omega)).mpr hfirst),
        ih (by omega) fun i hi => (hshift i).trans (hzeros (i + 1) (by omega))]
      constructor
      · rintro ⟨n, hn, hbits⟩
        refine ⟨n + 1, by omega, fun i hi => ?_⟩
        cases i with
        | zero => rw [hfirst, decide_eq_true (Nat.succ_pos n)]
        | succ i =>
          rw [← hshift, hbits i (by omega), decide_eq_decide]
          omega
      · rintro ⟨n, hn, hbits⟩
        refine ⟨n - 1, by omega, fun i hi => ?_⟩
        rw [hshift]
        by_cases hlast : i + 1 < w
        · rw [hbits (i + 1) hlast, decide_eq_decide]
          omega
        · rw [BitVec.getMsbD_of_ge _ _ (by omega), decide_eq_false (by omega)]
    · rw [← dropOnes, dropOnes_of_zero (Bool.eq_false_iff.mpr hfirst)]
      constructor
      · rintro rfl
        exact ⟨0, Nat.zero_le _, (isMask_zero_iff.mpr rfl).bit⟩
      · rintro ⟨n, hn, hbits⟩
        obtain rfl : n = 0 := Nat.eq_zero_of_not_pos fun hpos =>
          hfirst ((hbits 0 (by omega)).trans (decide_eq_true hpos))
        exact isMask_zero_iff.mp ⟨Nat.zero_le w, hbits⟩

theorem dropOnes_eq_zero_iff : dropOnes w x = 0 ↔ ∃ n, IsMask x n := by
  rw [dropOnes_eq_zero_iff_of_zeros (Nat.le_refl w) fun i hi => BitVec.getMsbD_of_ge _ _ hi]
  exact ⟨fun ⟨n, hn, hbits⟩ => ⟨n, hn, hbits⟩, fun ⟨n, h⟩ => ⟨n, h.le, h.bit⟩⟩

/-! ## Bytes -/

/-- Ones in the first `n` bits of the bytes, and zeros behind them. -/
structure IsByteMask (bytes : List UInt8) (n : ℕ) : Prop where
  le : n ≤ 8 * bytes.length
  bit : ∀ i < 8 * bytes.length, BigEndian.bit bytes i = decide (i < n)

theorem isByteMask_nil : IsByteMask [] 0 where
  le := Nat.le_refl 0
  bit _ hi := absurd hi (Nat.not_lt_zero _)

theorem isByteMask_cons_iff {b : UInt8} {bs : List UInt8} :
    IsByteMask (b :: bs) n ↔ IsMask b.toBitVec (min 8 n) ∧ IsByteMask bs (n - 8) := by
  constructor
  · rintro ⟨hle, hbit⟩
    rw [List.length_cons] at hle hbit
    refine ⟨⟨Nat.min_le_left 8 n, fun i hi => ?_⟩, ⟨by omega, fun i hi => ?_⟩⟩
    · rw [← BigEndian.bit_cons_lt b bs hi, hbit i (by omega), decide_eq_decide]
      omega
    · rw [← BigEndian.bit_cons_add b bs i, hbit (i + 8) (by omega), decide_eq_decide]
      omega
  · rintro ⟨hhead, hle, hbit⟩
    refine ⟨by rw [List.length_cons]; omega, fun i hi => ?_⟩
    rw [List.length_cons] at hi
    by_cases hi8 : i < 8
    · rw [BigEndian.bit_cons_lt b bs hi8, hhead.bit i hi8, decide_eq_decide]
      omega
    · obtain ⟨j, rfl⟩ : ∃ j, i = j + 8 := ⟨i - 8, by omega⟩
      rw [BigEndian.bit_cons_add, hbit j (by omega), decide_eq_decide]
      omega

theorem isMask_byte_zero_iff {b : UInt8} : IsMask b.toBitVec 0 ↔ b = 0 :=
  isMask_zero_iff.trans UInt8.toBitVec_inj

theorem isMask_byte_full_iff {b : UInt8} : IsMask b.toBitVec 8 ↔ b = 255 :=
  isMask_full_iff.trans (UInt8.toBitVec_inj (b := 255))

theorem isByteMask_zero_iff {bytes : List UInt8} : IsByteMask bytes 0 ↔ ∀ b ∈ bytes, b = 0 := by
  induction bytes with
  | nil => exact iff_of_true isByteMask_nil (by simp)
  | cons b bs ih =>
    rw [isByteMask_cons_iff, List.forall_mem_cons, Nat.min_zero, Nat.zero_sub,
      isMask_byte_zero_iff, ih]

/-- The bytes are a mask, if and only if each of them is one, and those in front of a byte that is
not zero are full. -/
theorem exists_isByteMask_iff {bytes : List UInt8} :
    (∃ n, IsByteMask bytes n) ↔
      (∀ b ∈ bytes, ∃ n, IsMask b.toBitVec n) ∧
        bytes.Pairwise fun b b' => b' ≠ 0 → b = 255 := by
  induction bytes with
  | nil => exact iff_of_true ⟨0, isByteMask_nil⟩ (by simp)
  | cons b bs ih =>
    rw [List.forall_mem_cons, List.pairwise_cons]
    constructor
    · rintro ⟨n, h⟩
      obtain ⟨hhead, htail⟩ := isByteMask_cons_iff.mp h
      obtain ⟨hbytes, hpairs⟩ := ih.mp ⟨_, htail⟩
      refine ⟨⟨⟨_, hhead⟩, hbytes⟩, fun b' hb' hne => ?_, hpairs⟩
      by_cases hfull : 8 ≤ n
      · rw [Nat.min_eq_left hfull] at hhead
        exact isMask_byte_full_iff.mp hhead
      · rw [Nat.sub_eq_zero_of_le (by omega)] at htail
        exact absurd (isByteMask_zero_iff.mp htail b' hb') hne
    · rintro ⟨⟨⟨k, hhead⟩, hbytes⟩, hfront, hpairs⟩
      obtain ⟨m, htail⟩ := ih.mpr ⟨hbytes, hpairs⟩
      have hk := hhead.le
      by_cases hfull : k = 8
      · subst hfull
        refine ⟨m + 8, isByteMask_cons_iff.mpr ⟨?_, ?_⟩⟩
        · rwa [Nat.min_eq_left (by omega)]
        · rwa [Nat.add_sub_cancel]
      · have hne : b ≠ 255 := fun heq => hfull (hhead.unique (isMask_byte_full_iff.mpr heq))
        have hzeros : ∀ b' ∈ bs, b' = 0 := fun b' hb' =>
          not_not.mp fun hb'0 => hne (hfront b' hb' hb'0)
        refine ⟨k, isByteMask_cons_iff.mpr ⟨?_, ?_⟩⟩
        · rwa [Nat.min_eq_right hk]
        · rw [Nat.sub_eq_zero_of_le hk]
          exact isByteMask_zero_iff.mpr hzeros

end Webpp.LeadingBits
