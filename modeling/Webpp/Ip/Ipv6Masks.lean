import Webpp.Foundation.LeadingBits
import Webpp.Ip.IpAddress

/-!
# Masks of `ipv6`

A mask of `n` bits is made of two words of 64 bits. The word in which it ends is shifted by
`128 - n` modulo 64, so that for no bits the upper word is not shifted at all. The octets
`starts_with` gets are compared as they are, also behind the bits of the prefix, and no further
than they go.
-/

namespace Webpp.Ip.Ipv6

open BigEndian LeadingBits

/-! ## The functions -/

/-- One of the `octets64` -/
def octet64 (octets : List UInt8) (start : ℕ) : UInt64 :=
  ((octets.getD start 0).toUInt64 <<< 56) ||| ((octets.getD (start + 1) 0).toUInt64 <<< 48) |||
    ((octets.getD (start + 2) 0).toUInt64 <<< 40) |||
    ((octets.getD (start + 3) 0).toUInt64 <<< 32) |||
    ((octets.getD (start + 4) 0).toUInt64 <<< 24) |||
    ((octets.getD (start + 5) 0).toUInt64 <<< 16) |||
    ((octets.getD (start + 6) 0).toUInt64 <<< 8) ||| (octets.getD (start + 7) 0).toUInt64

def octets64 (ip : Ipv6) : UInt64 × UInt64 := (octet64 ip.data 0, octet64 ip.data 8)

/-- The octets of one word in `to_octets_t` -/
def octetsOf64 (x : UInt64) : List UInt8 :=
  [(x >>> 56 &&& 0xFF).toUInt8, (x >>> 48 &&& 0xFF).toUInt8, (x >>> 40 &&& 0xFF).toUInt8,
    (x >>> 32 &&& 0xFF).toUInt8, (x >>> 24 &&& 0xFF).toUInt8, (x >>> 16 &&& 0xFF).toUInt8,
    (x >>> 8 &&& 0xFF).toUInt8, (x &&& 0xFF).toUInt8]

/-- `to_octets_t` of two words -/
def toOctets (octets : UInt64 × UInt64) : List UInt8 :=
  octetsOf64 octets.1 ++ octetsOf64 octets.2

def mask (ip : Ipv6) (numBits : ℕ) : Ipv6 :=
  let numBits := min numBits ipv6MaxPrefix.toNat
  let ones : UInt64 := 0xFFFFFFFFFFFFFFFF
  let fragment : UInt64 := ⟨ones.toBitVec <<< ((ipv6MaxPrefix.toNat - numBits) % 64)⟩
  let high := if numBits ≤ 64 then fragment else ones
  let low := if numBits ≤ 64 then 0 else fragment
  ⟨toOctets (high &&& ip.octets64.1, low &&& ip.octets64.2), InetPton6Status.valid.prefixStatus⟩

/-- `starts_with` of an array of at most 16 octets -/
def startsWithArray (ip : Ipv6) (inpOctets : List UInt8) (inpPrefix : ℕ) : Bool :=
  inpOctets == (ip.mask inpPrefix).data.take inpOctets.length

/-- `starts_with` of an `ipv6` -/
def startsWith (ip ipAddr : Ipv6) (inpPrefix : ℕ) : Bool :=
  (ipAddr.mask inpPrefix).data == (ip.mask inpPrefix).data

/-- The octets of an address, with zeros for the ones that are missing. -/
def withZeros (inpOctets : List UInt8) : List UInt8 :=
  inpOctets ++ List.replicate (16 - inpOctets.length) 0

/-- The bits in front of the place `n` are kept, a mask of fewer bits keeps no others, and the
address starts with the bits of the octets where it has the same ones. -/
structure Masks (ip : Ipv6) (inpOctets : List UInt8) (m n : ℕ) : Prop where
  mask : ∀ i < 128, bit (ip.mask n).data i = (decide (i < n) && bit ip.data i)
  idempotent : (ip.mask n).mask n = ip.mask n
  monotone : ∀ i < 128, bit (ip.mask m).data i = true → bit (ip.mask n).data i = true
  startsWith : ∀ v, ip.startsWith ⟨withZeros inpOctets, v⟩ n = true ↔
    ∀ i < n, bit ip.data i = bit inpOctets i
  startsWithArray : ip.startsWithArray inpOctets n = true ↔
    ∀ i < n, bit ip.data i = bit inpOctets i

/-! ## Words -/

theorem toBitVec_octet64 (octets : List UInt8) (start : ℕ) :
    (octet64 octets start).toBitVec = place 64 (window octets start 8) := by
  simp [octet64, window, List.range_succ, place, BitVec.or_assoc]

theorem getMsbD_octet64 (octets : List UInt8) (start : ℕ) {i : ℕ} (hi : i < 64) :
    (octet64 octets start).toBitVec.getMsbD i = bit octets (8 * start + i) := by
  rw [toBitVec_octet64, getMsbD_place_whole (by simp [window]) hi, bit_window octets start hi]

theorem octetsOf64_eq_bytesOf (x : UInt64) : octetsOf64 x = bytesOf 8 x.toBitVec := by
  simp [octetsOf64, bytesOf, List.range_succ, ← UInt8.toBitVec_inj, and_byteOnes]

theorem bit_octetsOf64 (x : UInt64) {i : ℕ} (hi : i < 64) :
    bit (octetsOf64 x) i = x.toBitVec.getMsbD i := by
  rw [octetsOf64_eq_bytesOf, bit_bytesOf x.toBitVec rfl hi]

theorem bit_toOctets (octets : UInt64 × UInt64) {i : ℕ} (hi : i < 128) :
    bit (toOctets octets) i =
      if i < 64 then octets.1.toBitVec.getMsbD i else octets.2.toBitVec.getMsbD (i - 64) := by
  have hlen : 8 * (octetsOf64 octets.1).length = 64 := rfl
  rw [toOctets, bit_append, hlen]
  by_cases hhigh : i < 64
  · rw [if_pos hhigh, if_pos hhigh, bit_octetsOf64 _ hhigh]
  · rw [if_neg hhigh, if_neg hhigh, bit_octetsOf64 _ (by omega)]

/-! ## The mask -/

/-- So many bits are kept. -/
def keptBits (n : ℕ) : ℕ := if n = 0 then 64 else n

theorem mask_eq_mk (ip : Ipv6) (n : ℕ) :
    ip.mask n = ⟨(ip.mask n).data, InetPton6Status.valid.prefixStatus⟩ := rfl

theorem length_mask (ip : Ipv6) (n : ℕ) : (ip.mask n).data.length = 16 := rfl

theorem getMsbD_and_octet64 {m : UInt64} {k : ℕ} (h : IsMask m.toBitVec k) (octets : List UInt8)
    (start : ℕ) {i : ℕ} (hi : i < 64) :
    (m &&& octet64 octets start).toBitVec.getMsbD i =
      (decide (i < k) && bit octets (8 * start + i)) := by
  rw [UInt64.toBitVec_and, BitVec.getMsbD_and, h.bit i hi, getMsbD_octet64 octets start hi]

theorem bit_mask_of_isMask {octets : List UInt8} {high low : UInt64} {k i : ℕ}
    (hhigh : IsMask high.toBitVec (min 64 k)) (hlow : IsMask low.toBitVec (k - 64))
    (hi : i < 128) :
    bit (toOctets (high &&& octet64 octets 0, low &&& octet64 octets 8)) i =
      (decide (i < k) && bit octets i) := by
  rw [bit_toOctets _ hi]
  by_cases hfirst : i < 64
  · rw [if_pos hfirst, getMsbD_and_octet64 hhigh octets 0 hfirst, Nat.mul_zero, Nat.zero_add]
    congr 1
    rw [decide_eq_decide]
    omega
  · rw [if_neg hfirst, getMsbD_and_octet64 hlow octets 8 (by omega),
      show 8 * 8 + (i - 64) = i by omega]
    congr 1
    rw [decide_eq_decide]
    omega

theorem bit_mask (ip : Ipv6) {n i : ℕ} (hn : n ≤ 128) (hi : i < 128) :
    bit (ip.mask n).data i = (decide (i < keptBits n) && bit ip.data i) := by
  have hmax : ipv6MaxPrefix.toNat = 128 := rfl
  have hones : (0xFFFFFFFFFFFFFFFF : UInt64).toBitVec = BitVec.allOnes 64 := rfl
  have hmin : min n 128 = n := Nat.min_eq_left hn
  rw [mask, hmax, hmin, hones]
  dsimp only [octets64]
  by_cases hfirst : n ≤ 64
  · have hkept : keptBits n ≤ 64 ∧ (128 - n) % 64 = 64 - keptBits n := by
      rw [keptBits]
      split_ifs <;> omega
    rw [if_pos hfirst, if_pos hfirst, hkept.2]
    refine bit_mask_of_isMask ?_ ?_ hi
    · rw [Nat.min_eq_right hkept.1]
      exact isMask_shift hkept.1
    · rw [Nat.sub_eq_zero_of_le hkept.1]
      exact isMask_zero_iff.mpr rfl
  · have hkept : keptBits n = n := if_neg (by omega)
    have hamount : (128 - n) % 64 = 64 - (n - 64) := by omega
    rw [if_neg hfirst, if_neg hfirst, hkept, hamount]
    refine bit_mask_of_isMask ?_ (isMask_shift (by omega)) hi
    rw [Nat.min_eq_left (by omega)]
    exact isMask_full_iff.mpr hones

theorem mask_idempotent (ip : Ipv6) {n : ℕ} (hn : n ≤ 128) : (ip.mask n).mask n = ip.mask n := by
  have hdata : ((ip.mask n).mask n).data = (ip.mask n).data := by
    refine ext_bit ((length_mask _ n).trans (length_mask ip n).symm) fun i hi => ?_
    rw [length_mask] at hi
    rw [bit_mask _ hn hi, bit_mask _ hn hi, ← Bool.and_assoc, Bool.and_self]
  rw [mask_eq_mk, hdata, ← mask_eq_mk]

/-! ## Comparisons -/

theorem keptBits_le {n : ℕ} (hn : n ≤ 128) : keptBits n ≤ 128 := by
  rw [keptBits]
  split_ifs <;> omega

theorem bit_withZeros (inpOctets : List UInt8) (i : ℕ) :
    bit (withZeros inpOctets) i = bit inpOctets i := by
  rw [withZeros, bit_append, bit_replicate_zero]
  split_ifs with hi
  · rfl
  · exact (bit_of_le (by omega)).symm

/-- An `ipv6` is compared on the bits that are kept. -/
theorem startsWith_iff (ip : Ipv6) (inpOctets : List UInt8) (v : UInt8) {n : ℕ} (hn : n ≤ 128) :
    ip.startsWith ⟨withZeros inpOctets, v⟩ n = true ↔
      ∀ i < keptBits n, bit ip.data i = bit inpOctets i := by
  rw [startsWith, beq_iff_eq, eq_iff_bit ((length_mask _ n).trans (length_mask ip n).symm),
    length_mask]
  constructor
  · intro h i hi
    have hi128 := Nat.lt_of_lt_of_le hi (keptBits_le hn)
    have hbit := h i hi128
    rw [bit_mask _ hn hi128, bit_mask _ hn hi128, bit_withZeros, decide_eq_true hi, Bool.true_and,
      Bool.true_and] at hbit
    exact hbit.symm
  · intro h i hi
    rw [bit_mask _ hn hi, bit_mask _ hn hi, bit_withZeros]
    by_cases hkept : i < keptBits n
    · rw [h i hkept]
    · rw [decide_eq_false hkept, Bool.false_and, Bool.false_and]

theorem startsWithArray_iff (ip : Ipv6) {inpOctets : List UInt8} (hlen : inpOctets.length ≤ 16)
    {n : ℕ} (hn : n ≤ 128) :
    ip.startsWithArray inpOctets n = true ↔
      ∀ i < 8 * inpOctets.length,
        bit inpOctets i = (decide (i < keptBits n) && bit ip.data i) := by
  have htake : ((ip.mask n).data.take inpOctets.length).length = inpOctets.length := by
    rw [List.length_take, length_mask, Nat.min_eq_left hlen]
  rw [startsWithArray, beq_iff_eq, eq_iff_bit htake.symm]
  refine forall₂_congr fun i hi => ?_
  rw [bit_take hi, bit_mask ip hn (by omega)]

/-! ## Where the masks are right -/

theorem mask_right_iff (ip : Ipv6) {n : ℕ} (hn : n ≤ 128) :
    (∀ i < 128, bit (ip.mask n).data i = (decide (i < n) && bit ip.data i)) ↔
      (n = 0 → ∀ i < 64, bit ip.data i = false) := by
  by_cases hzero : n = 0
  · subst hzero
    have hkept : keptBits 0 = 64 := rfl
    constructor
    · intro h _ i hi
      have hbit := h i (by omega)
      rwa [bit_mask ip hn (by omega), hkept, decide_eq_true hi, Bool.true_and,
        decide_eq_false (Nat.not_lt_zero i), Bool.false_and] at hbit
    · intro h i hi
      rw [bit_mask ip hn hi, hkept, decide_eq_false (Nat.not_lt_zero i), Bool.false_and]
      by_cases hupper : i < 64
      · rw [h rfl i hupper, Bool.and_false]
      · rw [decide_eq_false hupper, Bool.false_and]
  · have hkept : keptBits n = n := if_neg hzero
    refine iff_of_true (fun i hi => ?_) (fun h => absurd h hzero)
    rw [bit_mask ip hn hi, hkept]

/-- A mask of no bits keeps some that one of `n` bits does not keep, unless they are zeros. -/
theorem monotone_iff (ip : Ipv6) {m n : ℕ} (hmn : m ≤ n) (hn : n ≤ 128)
    (hright : n = 0 → ∀ i < 64, bit ip.data i = false) :
    (∀ i < 128, bit (ip.mask m).data i = true → bit (ip.mask n).data i = true) ↔
      (m = 0 → ∀ i < 64, n ≤ i → bit ip.data i = false) := by
  have hmask := (mask_right_iff ip hn).mpr hright
  constructor
  · rintro h rfl i hi hni
    refine Bool.eq_false_iff.mpr fun hbit => ?_
    have hset := h i (by omega)
    have hkept : keptBits 0 = 64 := rfl
    rw [bit_mask ip (by omega) (by omega), hkept, decide_eq_true hi, hmask i (by omega),
      decide_eq_false (by omega), hbit] at hset
    exact Bool.false_ne_true (hset rfl)
  · intro h i hi hset
    rw [bit_mask ip (by omega) hi, Bool.and_eq_true, decide_eq_true_iff, keptBits] at hset
    rw [hmask i hi, hset.2, Bool.and_true, decide_eq_true_iff]
    by_contra hni
    by_cases hzero : m = 0
    · rw [if_pos hzero] at hset
      exact Bool.false_ne_true ((h hzero i hset.1 (by omega)).symm.trans hset.2)
    · rw [if_neg hzero] at hset
      omega

/-- Octets are compared with a mask that is right as they should be, if and only if there are only
zeros behind the bits they share, in the one as in the other. -/
theorem startsWithArray_right_iff (ip : Ipv6) {inpOctets : List UInt8}
    (hlen : inpOctets.length ≤ 16) {n : ℕ} (hn : n ≤ 128)
    (hright : n = 0 → ∀ i < 64, bit ip.data i = false) :
    (ip.startsWithArray inpOctets n = true ↔ ∀ i < n, bit ip.data i = bit inpOctets i) ↔
      ((∀ i < n, i < 8 * inpOctets.length → bit ip.data i = bit inpOctets i) →
        (∀ i, n ≤ i → bit inpOctets i = false) ∧
          ∀ i < n, 8 * inpOctets.length ≤ i → bit ip.data i = false) := by
  have hmask := (mask_right_iff ip hn).mpr hright
  -- the code compares the bits of the octets, the specification those of the prefix
  have hcode : ip.startsWithArray inpOctets n = true ↔
      (∀ i < n, i < 8 * inpOctets.length → bit ip.data i = bit inpOctets i) ∧
        ∀ i, n ≤ i → bit inpOctets i = false := by
    rw [startsWithArray_iff ip hlen hn]
    constructor
    · intro h
      have hbits : ∀ i < 8 * inpOctets.length,
          bit inpOctets i = (decide (i < n) && bit ip.data i) := fun i hi => by
        rw [h i hi, ← bit_mask ip hn (by omega), hmask i (by omega)]
      refine ⟨fun i hi hshared => ?_, fun i hi => ?_⟩
      · rw [hbits i hshared, decide_eq_true hi, Bool.true_and]
      · by_cases hshared : i < 8 * inpOctets.length
        · rw [hbits i hshared, decide_eq_false (by omega), Bool.false_and]
        · exact bit_of_le (by omega)
    · rintro ⟨hshared, hzeros⟩ i hi
      rw [← bit_mask ip hn (by omega), hmask i (by omega)]
      by_cases hin : i < n
      · rw [← hshared i hin hi, decide_eq_true hin, Bool.true_and]
      · rw [hzeros i (by omega), decide_eq_false hin, Bool.false_and]
  have hspec : (∀ i < n, bit ip.data i = bit inpOctets i) ↔
      (∀ i < n, i < 8 * inpOctets.length → bit ip.data i = bit inpOctets i) ∧
        ∀ i < n, 8 * inpOctets.length ≤ i → bit ip.data i = false := by
    constructor
    · exact fun h => ⟨fun i hi _ => h i hi, fun i hi hbehind => (h i hi).trans (bit_of_le hbehind)⟩
    · rintro ⟨hshared, hzeros⟩ i hi
      by_cases hin : i < 8 * inpOctets.length
      · exact hshared i hi hin
      · rw [hzeros i hi (by omega), bit_of_le (by omega)]
  -- only one of the two has bits behind those they share
  have hone : (∀ i, n ≤ i → bit inpOctets i = false) ∨
      ∀ i < n, 8 * inpOctets.length ≤ i → bit ip.data i = false := by
    by_cases hshort : 8 * inpOctets.length ≤ n
    · exact Or.inl fun i hi => bit_of_le (by omega)
    · exact Or.inr fun i hi hbehind => absurd hbehind (by omega)
  rw [hcode, hspec]
  tauto

/-- The masks are right, if and only if a mask of no bits meets no ones in the upper word behind
the bits of the other one; and, where the address has the bits of the octets, there are no ones in
the octets behind the prefix, and none in the address between the octets and the end of the
prefix. -/
theorem masks_iff_zeros (ip : Ipv6) {inpOctets : List UInt8} (hlen : inpOctets.length ≤ 16)
    {m n : ℕ} (hmn : m ≤ n) (hn : n ≤ 128) :
    ip.Masks inpOctets m n ↔
      (m = 0 → ∀ i < 64, n ≤ i → bit ip.data i = false) ∧
        ((∀ i < n, i < 8 * inpOctets.length → bit ip.data i = bit inpOctets i) →
          (∀ i, n ≤ i → bit inpOctets i = false) ∧
            ∀ i < n, 8 * inpOctets.length ≤ i → bit ip.data i = false) := by
  constructor
  · intro h
    have hright := (mask_right_iff ip hn).mp h.mask
    exact ⟨(monotone_iff ip hmn hn hright).mp h.monotone,
      (startsWithArray_right_iff ip hlen hn hright).mp h.startsWithArray⟩
  · rintro ⟨hmono, harray⟩
    have hright : n = 0 → ∀ i < 64, bit ip.data i = false := fun hzero i hi =>
      hmono (by omega) i hi (by omega)
    refine ⟨(mask_right_iff ip hn).mpr hright, mask_idempotent ip hn,
      (monotone_iff ip hmn hn hright).mpr hmono, fun v => ?_,
      (startsWithArray_right_iff ip hlen hn hright).mpr harray⟩
    rw [startsWith_iff ip inpOctets v hn]
    by_cases hzero : n = 0
    · -- both have zeros in the upper word
      subst hzero
      have hzeros := (harray fun i hi => absurd hi (Nat.not_lt_zero i)).1
      refine iff_of_true (fun i hi => ?_) (fun i hi => absurd hi (Nat.not_lt_zero i))
      rw [hright rfl i hi, hzeros i (Nat.zero_le i)]
    · rw [keptBits, if_neg hzero]

theorem masks_private :
    [0xFC, 0].length ≤ 16 ∧ 3 ≤ 7 ∧ 7 ≤ 128 ∧
      ((Ipv6.mk (withZeros [0xFD, 1]) 255).Masks [0xFC, 0] 3 7 ↔
        (3 = 0 → ∀ i < 64, 7 ≤ i → bit (withZeros [0xFD, 1]) i = false) ∧
          ((∀ i < 7, i < 8 * [0xFC, 0].length →
              bit (withZeros [0xFD, 1]) i = bit [0xFC, 0] i) →
            (∀ i, 7 ≤ i → bit [0xFC, 0] i = false) ∧
              ∀ i < 7, 8 * [0xFC, 0].length ≤ i → bit (withZeros [0xFD, 1]) i = false)) :=
  ⟨by decide, by decide, by decide,
    masks_iff_zeros (Ipv6.mk (withZeros [0xFD, 1]) 255) (by decide) (by decide) (by decide)⟩

/-- No bits are kept, and the upper word stays; an octet has bits behind the prefix, and one is
missing in which the address has ones. -/
theorem not_masks :
    ¬ (Ipv6.mk (withZeros [0x20, 1]) 255).Masks [] 0 0 ∧
      ¬ (Ipv6.mk (withZeros [0x20, 1]) 255).Masks [0x20, 1] 3 3 ∧
      ¬ (Ipv6.mk (withZeros [0x20, 0, 1]) 255).Masks [0x20] 24 24 ∧
      ((Ipv6.mk (withZeros [0x20, 1]) 255).mask 0).data = withZeros [0x20, 1] ∧
      (Ipv6.mk (withZeros [0x20, 1]) 255).startsWithArray [0x20, 1] 3 = false ∧
      (Ipv6.mk (withZeros [0x20, 1]) 255).startsWith ⟨withZeros [0x20, 1], 255⟩ 3 = true ∧
      (Ipv6.mk (withZeros [0x20, 0, 1]) 255).startsWithArray [0x20] 24 = true := by
  refine ⟨fun h => ?_, fun h => ?_, fun h => ?_, by decide, by decide, by decide, by decide⟩
  · exact absurd (h.mask 2 (by decide)) (by decide)
  · exact absurd (h.startsWithArray.mpr (by decide)) (by decide)
  · exact absurd (h.startsWithArray.mp (by decide)) (by decide)

end Webpp.Ip.Ipv6
