import Webpp.Foundation.LeadingBits
import Webpp.Ip.IpAddress

/-!
# Masks of `ipv4`

A mask of `n` bits is a word of ones that is shifted by `32 - n`. For no bits the amount is 32,
and for a prefix byte that holds a status it wraps; both are as large as the word, and the shift
is undefined.
-/

namespace Webpp.Ip

open BigEndian LeadingBits

variable {n : ℕ}

/-! ## The functions -/

/-- A shift of a word, without a value where it is undefined. -/
def shl (x : UInt32) (amount : ℕ) : Option UInt32 :=
  if amount < 32 then some ⟨x.toBitVec <<< amount⟩ else none

/-- `static_cast<stl::uint32_t>` -/
def toUInt32 (x : ℤ) : ℕ := (x % 2 ^ 32).toNat

def toSubnet (value : UInt8) : Option UInt32 :=
  shl 0xFFFFFFFF (toUInt32 (ipv4MaxPrefix.toNat - value.toNat))

def toSubnetArray (value : UInt8) : Option (List UInt8) := (toSubnet value).map Ipv4.octetsOf

/-- `to_prefix` of an integer -/
def toPrefix (octets : UInt32) : ℕ := (onesLoop octets.toBitVec 32 0x80000000 0).1

/-- `to_prefix` of some octets, with the prefix of the ones in front of them. -/
def toPrefixArray : List UInt8 → ℕ → ℕ
  | [], value => value
  | octet :: octets, value =>
    match onesLoop octet.toBitVec 8 0b10000000 value with
    | (value, true) => toPrefixArray octets value
    | (value, false) => value

namespace Ipv4

def mask (ip : Ipv4) (numBits : ℕ) : Option Ipv4 :=
  let numBits := min numBits ipv4MaxPrefix.toNat
  (shl 0xFFFFFFFF (ipv4MaxPrefix.toNat - numBits)).map fun fragment =>
    ⟨ip.data &&& fragment, InetPton4Status.valid.prefixStatus⟩

def startsWith (ip ipAddr : Ipv4) (inpPrefix : ℕ) : Option Bool :=
  (ip.mask inpPrefix).bind fun masked =>
    (ipAddr.mask inpPrefix).map fun ipMasked => masked.data == ipMasked.data

def isInSubnet (ip ipAddr : Ipv4) : Option Bool :=
  let amount := toUInt32 (ipv4MaxPrefix.toNat - ipAddr.prefixValue.toNat)
  (shl 0xFFFFFFFF amount).map fun fragment =>
    (ip.data &&& fragment) == (ipAddr.data &&& fragment)

def isLoopback (ip : Ipv4) : Option Bool := ip.isInSubnet ⟨parseOctets [127, 0, 0, 0], 8⟩

def isLinkLocal (ip : Ipv4) : Option Bool := ip.isInSubnet ⟨parseOctets [169, 254, 0, 0], 16⟩

end Ipv4

/-! ## Shifts -/

theorem allOnes_toBitVec : (0xFFFFFFFF : UInt32).toBitVec = BitVec.allOnes 32 := rfl

theorem shl_ones (hpos : 1 ≤ n) (hn : n ≤ 32) :
    ∃ m, shl 0xFFFFFFFF (32 - n) = some m ∧ IsMask m.toBitVec n := by
  refine ⟨_, if_pos (by omega), ?_⟩
  change IsMask ((0xFFFFFFFF : UInt32).toBitVec <<< (32 - n)) n
  rw [allOnes_toBitVec]
  exact isMask_shift hn

theorem isSome_shl_iff (value : UInt8) :
    (shl 0xFFFFFFFF (toUInt32 (ipv4MaxPrefix.toNat - value.toNat))).isSome = true ↔
      1 ≤ value.toNat ∧ value.toNat ≤ 32 := by
  have hlt := value.toNat_lt
  have hmax : ipv4MaxPrefix.toNat = 32 := rfl
  rw [shl, toUInt32, hmax]
  by_cases h : ((((32 : ℕ) : ℤ) - (value.toNat : ℤ)) % 2 ^ 32).toNat < 32
  · rw [if_pos h]
    exact iff_of_true rfl (by omega)
  · rw [if_neg h]
    exact iff_of_false Bool.false_ne_true (by omega)

theorem toUInt32_sub (hn : n ≤ 32) :
    toUInt32 (ipv4MaxPrefix.toNat - (UInt8.ofNat n).toNat) = 32 - n := by
  have hmax : ipv4MaxPrefix.toNat = 32 := rfl
  rw [toUInt32, hmax, UInt8.toNat_ofNat', Nat.mod_eq_of_lt (by omega)]
  omega

/-! ## Prefixes -/

theorem bitAt_thirtyTwo : (0x80000000 : BitVec 32) = bitAt 32 0 := by decide

theorem bitAt_eight : (0b10000000 : BitVec 8) = bitAt 8 0 := by decide

theorem toPrefix_of_isMask {x : UInt32} (h : IsMask x.toBitVec n) : toPrefix x = n := by
  rw [toPrefix, bitAt_thirtyTwo, h.onesLoop, Nat.zero_add]

theorem toPrefixArray_of_isByteMask {octets : List UInt8} (h : IsByteMask octets n)
    (value : ℕ) : toPrefixArray octets value = value + n := by
  induction octets generalizing n value with
  | nil =>
    have hle := h.le
    rw [List.length_nil] at hle
    rw [toPrefixArray]
    omega
  | cons octet octets ih =>
    obtain ⟨hmask, htail⟩ := isByteMask_cons_iff.mp h
    rw [toPrefixArray, bitAt_eight, hmask.onesLoop]
    by_cases hfull : 8 ≤ n
    · rw [Nat.min_eq_left hfull, decide_eq_true rfl]
      exact (ih htail (value + 8)).trans (by omega)
    · rw [Nat.min_eq_right (by omega), decide_eq_false (by omega)]

namespace Ipv4

/-- An integer is a mask, if and only if its octets are. -/
theorem isMask_parseOctets_iff {q : List UInt8} (h : q.length = 4) :
    IsMask (parseOctets q).toBitVec n ↔ IsByteMask q n := by
  have hbits : 8 * q.length = 32 := by rw [h]
  constructor
  · intro hmask
    refine ⟨hbits ▸ hmask.le, fun i hi => ?_⟩
    rw [hbits] at hi
    rw [← getMsbD_parseOctets h hi, hmask.bit i hi]
  · intro hmask
    refine ⟨hbits ▸ hmask.le, fun i hi => ?_⟩
    rw [getMsbD_parseOctets h hi, hmask.bit i (by omega)]

end Ipv4

theorem toPrefixArray_of_isMask {x : UInt32} (h : IsMask x.toBitVec n) :
    toPrefixArray (Ipv4.octetsOf x) 0 = n := by
  rw [← Ipv4.parseOctets_octetsOf x, Ipv4.isMask_parseOctets_iff (Ipv4.length_octetsOf x)] at h
  rw [toPrefixArray_of_isByteMask h, Nat.zero_add]

/-! ## Where the masks are right -/

namespace Ipv4

/-- The functions of the prefix `n`, and the shift by the own prefix of the argument. -/
structure Masks (a ip : Ipv4) (n : ℕ) : Prop where
  mask : ∃ m, a.mask n = some m ∧
    ∀ i < 32, m.data.toBitVec.getMsbD i = (decide (i < n) && a.data.toBitVec.getMsbD i)
  startsWith : ∃ b, a.startsWith ip n = some b ∧
    (b = true ↔ Agree n a.data.toBitVec ip.data.toBitVec)
  isInSubnet : ∃ b, a.isInSubnet ⟨ip.data, UInt8.ofNat n⟩ = some b ∧
    (b = true ↔ Agree n a.data.toBitVec ip.data.toBitVec)
  toSubnet : ∃ x, toSubnet (UInt8.ofNat n) = some x ∧ IsMask x.toBitVec n ∧ toPrefix x = n
  toSubnetArray : ∃ q, toSubnetArray (UInt8.ofNat n) = some q ∧ toPrefixArray q 0 = n
  shift : (a.isInSubnet ip).isSome = true

theorem beq_and_iff {x y m : UInt32} (h : IsMask m.toBitVec n) :
    ((x &&& m) == (y &&& m)) = true ↔ Agree n x.toBitVec y.toBitVec := by
  rw [beq_iff_eq, ← UInt32.toBitVec_inj, UInt32.toBitVec_and, UInt32.toBitVec_and, h.and_eq_iff]

theorem isSome_isInSubnet_iff (a ip : Ipv4) :
    (a.isInSubnet ip).isSome = true ↔ 1 ≤ ip.prefixValue.toNat ∧ ip.prefixValue.toNat ≤ 32 := by
  rw [isInSubnet, Option.isSome_map, isSome_shl_iff]

/-- The subnet of a prefix that is not zero. -/
theorem isInSubnet_eq (a : Ipv4) (data : UInt32) (hpos : 1 ≤ n) (hn : n ≤ 32) :
    ∃ b, a.isInSubnet ⟨data, UInt8.ofNat n⟩ = some b ∧
      (b = true ↔ Agree n a.data.toBitVec data.toBitVec) := by
  obtain ⟨m, hm, hmask⟩ := shl_ones hpos hn
  refine ⟨(a.data &&& m) == (data &&& m), ?_, beq_and_iff hmask⟩
  rw [isInSubnet, toUInt32_sub hn, hm, Option.map_some]

theorem isLoopback_eq (a : Ipv4) :
    ∃ b, a.isLoopback = some b ∧
      (b = true ↔ Agree 8 a.data.toBitVec (parseOctets [127, 0, 0, 0]).toBitVec) :=
  isInSubnet_eq a _ (by decide) (by decide)

theorem isLinkLocal_eq (a : Ipv4) :
    ∃ b, a.isLinkLocal = some b ∧
      (b = true ↔ Agree 16 a.data.toBitVec (parseOctets [169, 254, 0, 0]).toBitVec) :=
  isInSubnet_eq a _ (by decide) (by decide)

/-- The masks are right, if and only if there is a bit to keep, and a prefix that is not zero. -/
theorem masks_iff_pos (a ip : Ipv4) {n : ℕ} (hn : n ≤ 32) :
    a.Masks ip n ↔ 1 ≤ n ∧ 1 ≤ ip.prefixValue.toNat ∧ ip.prefixValue.toNat ≤ 32 := by
  constructor
  · intro h
    refine ⟨?_, (isSome_isInSubnet_iff a ip).mp h.shift⟩
    by_contra hzero
    obtain rfl : n = 0 := by omega
    obtain ⟨x, hx, -⟩ := h.toSubnet
    have hnone : Ip.toSubnet (UInt8.ofNat 0) = none := by decide
    exact Option.some_ne_none x (hx.symm.trans hnone)
  · rintro ⟨hpos, hpre⟩
    obtain ⟨m, hm, hmask⟩ := shl_ones hpos hn
    have hkeep : ∀ ip : Ipv4, ip.mask n =
        some ⟨ip.data &&& m, InetPton4Status.valid.prefixStatus⟩ := by
      intro ip
      have hmin : min n ipv4MaxPrefix.toNat = n := Nat.min_eq_left hn
      have hmax : ipv4MaxPrefix.toNat = 32 := rfl
      rw [Ipv4.mask, hmin, hmax, hm, Option.map_some]
    have hsubnet : Ip.toSubnet (UInt8.ofNat n) = some m := by
      rw [Ip.toSubnet, toUInt32_sub hn, hm]
    exact {
      mask := ⟨_, hkeep a, fun i hi => hmask.getMsbD_and a.data.toBitVec hi⟩
      startsWith := ⟨_, by rw [Ipv4.startsWith, hkeep, hkeep]; rfl, beq_and_iff hmask⟩
      isInSubnet := isInSubnet_eq a ip.data hpos hn
      toSubnet := ⟨m, hsubnet, hmask, toPrefix_of_isMask hmask⟩
      toSubnetArray := ⟨_, by rw [Ip.toSubnetArray, hsubnet]; rfl, toPrefixArray_of_isMask hmask⟩
      shift := (isSome_isInSubnet_iff a ip).mpr hpre }

theorem masks_sixteen :
    16 ≤ 32 ∧ ((Ipv4.mk 0xC0A80101 255).Masks ⟨0xC0A80000, 16⟩ 16 ↔
      1 ≤ 16 ∧ 1 ≤ (Ipv4.mk 0xC0A80000 16).prefixValue.toNat ∧
        (Ipv4.mk 0xC0A80000 16).prefixValue.toNat ≤ 32) :=
  ⟨by decide, masks_iff_pos ⟨0xC0A80101, 255⟩ ⟨0xC0A80000, 16⟩ (by decide)⟩

/-- A mask of no bits is shifted by 32, and an argument without a prefix by more. -/
theorem not_masks_zero :
    ¬ (Ipv4.mk 0xC0A80101 255).Masks ⟨0xC0A80000, 16⟩ 0 ∧
      ¬ (Ipv4.mk 0xC0A80101 255).Masks ⟨0xC0A80000, 255⟩ 16 ∧
      (Ipv4.mk 0xC0A80101 255).mask 0 = none ∧
      (Ipv4.mk 0xC0A80101 255).isInSubnet ⟨0xC0A80000, 255⟩ = none := by
  have hnone : (Ipv4.mk 0xC0A80101 255).mask 0 = none := by decide
  refine ⟨fun h => ?_, fun h => ?_, hnone, by decide⟩
  · obtain ⟨m, hm, -⟩ := h.mask
    exact Option.some_ne_none m (hm.symm.trans hnone)
  · exact absurd h.shift (by decide)

end Ipv4

end Webpp.Ip
