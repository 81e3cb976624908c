import Webpp.Ip.Assignment
import Webpp.Ip.Ipv4Masks

/-!
# Ranges of `ipv4`

`in_range` compares the bounds with the defaulted comparison, that looks at the prefix where the
integers are equal. A bound is in its range or not, depending on both prefixes; the first private
address of class B with a prefix is not private.
-/

/-!
## Comparisons of `ipv4`

An address is compared with another one, with four octets, with an integer and with a text. The
first comparison looks at the prefixes too. The ordering with a text has the text on its left
side, and a text that is no address counts as zero, both for the ordering and for the equality.
-/

namespace Webpp.Ip

namespace Ipv4

/-! ## The overloads -/

/-- The right side of a comparison. -/
inductive Operand where
  | ipv4 (ip : Ipv4)
  | octets (ip : List UInt8)
  | integer (ip : UInt32)
  | text (ip : List Char)

/-- The defaulted `operator<=>`: the members in their order. -/
def spaceship (a b : Ipv4) : Ordering :=
  (compare a.data b.data).then (compare a.prefixValue b.prefixValue)

/-- The overloads of `operator==`; `bin` is what an uninitialised array of octets contains. -/
def eq (a : Ipv4) (bin : Vector UInt8 4) : Operand → Bool
  | .ipv4 ip => a.prefixValue == ip.prefixValue && a.data == ip.data
  | .octets ip => a.data == parseOctets ip
  | .integer ip => a.data == ip
  | .text ip => (ofText bin ip).data == a.data

/-- The overloads of `operator<=>`. -/
def cmp (a : Ipv4) (bin : Vector UInt8 4) : Operand → Ordering
  | .ipv4 ip => a.spaceship ip
  | .octets ip => compare a.data (parseOctets ip)
  | .integer ip => compare a.data ip
  | .text ip => compare (ofText bin ip).data a.data

/-- The representations of an address. -/
def operands (b : UInt32) : List Operand :=
  [.ipv4 ⟨b, InetPton4Status.valid.prefixStatus⟩, .octets (octetsOf b), .integer b,
    .text (dottedQuad (octetsOf b))]

/-- Each representation of `b` compares as the integers do, and a text that is no address is not
equal to `a`. -/
structure Compares (a : Ipv4) (bin : Vector UInt8 4) (b : UInt32) (str : List Char) : Prop where
  eq : ∀ r ∈ operands b, a.eq bin r = decide (a.data.toNat = b.toNat)
  cmp : ∀ r ∈ operands b, a.cmp bin r = compare a.data.toNat b.toNat
  invalid : (¬ ∃ value, Denotes str value) → a.eq bin (.text str) = false

/-! ## Integers -/

theorem compare_toNat (x y : UInt32) : compare x y = compare x.toNat y.toNat := by
  simp only [compare, compareOfLessAndEq, UInt32.lt_iff_toNat_lt, UInt32.toNat_inj]

theorem eq_of_compare_comm {m n : ℕ} (h : compare m n = compare n m) : m = n := by
  obtain hlt | heq | hlt := Nat.lt_trichotomy m n
  · rw [Nat.compare_eq_lt.mpr hlt, Nat.compare_eq_gt.mpr hlt] at h
    cases h
  · exact heq
  · rw [Nat.compare_eq_lt.mpr hlt, Nat.compare_eq_gt.mpr hlt] at h
    cases h

theorem ofText_dottedQuad (bin : Vector UInt8 4) (b : UInt32) :
    (ofText bin (dottedQuad (octetsOf b))).data = b := by
  rw [ofText_eq_parse, parse_dottedQuad _ _ (length_octetsOf b), parseOctets_octetsOf]

theorem data_ofText_of_not_denotes {bin : Vector UInt8 4} {str : List Char}
    (h : ¬ ∃ value, Denotes str value) : (ofText bin str).data = 0 := by
  have hinvalid : (ofText bin str).isValid = false := by
    by_contra hvalid
    exact h ⟨_, denotes_of_isValid (Bool.not_eq_false _ ▸ hvalid)⟩
  rw [isValid_ofText] at hinvalid
  rw [ofText, if_neg (by rw [hinvalid]; exact Bool.false_ne_true)]

/-! ## Where the overloads agree -/

section Compares

variable {a : Ipv4} {bin : Vector UInt8 4} {b : UInt32} {str : List Char}

/-- The text is on the left side, so that it compares the other way round. -/
theorem Compares.data_eq (h : a.Compares bin b str) : a.data = b := by
  have htext := h.cmp (.text (dottedQuad (octetsOf b))) (by simp [operands])
  rw [Ipv4.cmp, ofText_dottedQuad, compare_toNat] at htext
  exact UInt32.toNat_inj.mp (eq_of_compare_comm htext).symm

theorem Compares.prefixValue_eq (h : a.Compares bin b str) :
    a.prefixValue = InetPton4Status.valid.prefixStatus := by
  have heq := h.eq (.ipv4 ⟨b, InetPton4Status.valid.prefixStatus⟩) (by simp [operands])
  rw [Ipv4.eq, h.data_eq, decide_eq_true rfl, Bool.and_eq_true, beq_iff_eq] at heq
  exact heq.1

theorem Compares.denotes_or (h : a.Compares bin b str) :
    (∃ value, Denotes str value) ∨ a.data ≠ 0 := by
  by_cases hdenotes : ∃ value, Denotes str value
  · exact Or.inl hdenotes
  · have heq := h.invalid hdenotes
    rw [Ipv4.eq, data_ofText_of_not_denotes hdenotes, beq_eq_false_iff_ne] at heq
    exact Or.inr heq.symm

theorem eq_operands (hpre : a.prefixValue = InetPton4Status.valid.prefixStatus) :
    ∀ r ∈ operands a.data, a.eq bin r = decide (a.data.toNat = a.data.toNat) := by
  intro r hr
  rw [decide_eq_true rfl]
  simp only [operands, List.mem_cons, List.not_mem_nil, or_false] at hr
  obtain rfl | rfl | rfl | rfl := hr
  · rw [eq, hpre, beq_self_eq_true, beq_self_eq_true, Bool.and_self]
  · rw [eq, parseOctets_octetsOf, beq_self_eq_true]
  · rw [eq, beq_self_eq_true]
  · rw [eq, ofText_dottedQuad, beq_self_eq_true]

theorem cmp_operands (hpre : a.prefixValue = InetPton4Status.valid.prefixStatus) :
    ∀ r ∈ operands a.data, a.cmp bin r = compare a.data.toNat a.data.toNat := by
  intro r hr
  have hself : compare a.data a.data = .eq := by
    rw [compare_toNat]
    exact Nat.compare_eq_eq.mpr rfl
  rw [← compare_toNat, hself]
  simp only [operands, List.mem_cons, List.not_mem_nil, or_false] at hr
  obtain rfl | rfl | rfl | rfl := hr
  · rw [cmp, spaceship, hpre, hself]
    rfl
  · rw [cmp, parseOctets_octetsOf, hself]
  · rw [cmp, hself]
  · rw [cmp, ofText_dottedQuad, hself]

end Compares

/-- The overloads compare rightly, if and only if the addresses are equal and the left one has no
prefix, and the text is an address or the left side is not zero. -/
theorem compares_iff (a : Ipv4) (bin : Vector UInt8 4) (b : UInt32) (str : List Char) :
    a.Compares bin b str ↔
      (a.data = b ∧ a.prefixValue = InetPton4Status.valid.prefixStatus) ∧
        ((∃ value, Denotes str value) ∨ a.data ≠ 0) := by
  constructor
  · exact fun h => ⟨⟨h.data_eq, h.prefixValue_eq⟩, h.denotes_or⟩
  · rintro ⟨⟨rfl, hpre⟩, htext⟩
    refine ⟨eq_operands hpre, cmp_operands hpre, fun hnot => ?_⟩
    rw [eq, data_ofText_of_not_denotes hnot, beq_eq_false_iff_ne]
    exact (htext.resolve_left hnot).symm

/-- The text of a greater address is less, an address is not equal to itself with a prefix, and
zero is equal to a text that is no address. -/
theorem not_compares :
    ¬ (∀ (a : Ipv4) (bin : Vector UInt8 4) (b : UInt32) (str : List Char),
        a.Compares bin b str) ∧
      (Ipv4.mk 0x01020304 255).cmp #v[0, 0, 0, 0] (.integer 0x01020305) = .lt ∧
      (Ipv4.mk 0x01020304 255).cmp #v[0, 0, 0, 0] (.text "1.2.3.5".toList) = .gt ∧
      (Ipv4.mk 0x01020304 24).eq #v[0, 0, 0, 0] (.ipv4 ⟨0x01020304, 255⟩) = false ∧
      (Ipv4.mk 0 255).eq #v[0, 0, 0, 0] (.text "x".toList) = true := by
  refine ⟨fun h => ?_, by decide, by decide, by decide, by decide⟩
  have heq := (h ⟨0x01020304, 24⟩ #v[0, 0, 0, 0] 0x01020304 []).eq
    (.ipv4 ⟨0x01020304, InetPton4Status.valid.prefixStatus⟩) (by simp [operands])
  exact absurd heq (by decide)

end Ipv4

end Webpp.Ip

namespace Webpp.Ip

open LeadingBits

namespace Ipv4

/-! ## The functions -/

def inRange (ip start finish : Ipv4) : Bool :=
  ip.spaceship start != .lt && ip.spaceship finish != .gt

def isPrivate (ip : Ipv4) : Option Bool :=
  let valid := InetPton4Status.valid.prefixStatus
  let classC : Ipv4 := ⟨parseOctets [192, 168, 0, 0], 16⟩
  let classBStart : Ipv4 := ⟨parseOctets [172, 16, 0, 0], valid⟩
  let classBFinish : Ipv4 := ⟨parseOctets [172, 31, 255, 255], valid⟩
  let classA : Ipv4 := ⟨parseOctets [10, 0, 0, 0], 8⟩
  (ip.isInSubnet classC).bind fun inClassC =>
    if inClassC || ip.inRange classBStart classBFinish then some true else ip.isInSubnet classA

def isPublic (ip : Ipv4) : Option Bool := ip.isPrivate.map not

def isNonroutable (ip : Ipv4) : Option Bool :=
  ip.isPrivate.map fun isPrivate =>
    isPrivate || (ip.data ≤ 0x00FFFFFF) || (0xC0000000 ≤ ip.data && ip.data ≤ 0xC00000FF) ||
      (0xC0000200 ≤ ip.data && ip.data ≤ 0xC00002FF) ||
      (0xC6120000 ≤ ip.data && ip.data ≤ 0xC613FFFF) ||
      (0xC6336400 ≤ ip.data && ip.data ≤ 0xC63364FF) ||
      (0xCB007100 ≤ ip.data && ip.data ≤ 0xCB0071FF) ||
      (0xE0000000 ≤ ip.data && ip.data ≤ 0xFFFFFFFF)

/-- The address is in one of the three private subnets. -/
def InPrivate (data : UInt32) : Prop :=
  Agree 8 data.toBitVec (parseOctets [10, 0, 0, 0]).toBitVec ∨
    Agree 12 data.toBitVec (parseOctets [172, 16, 0, 0]).toBitVec ∨
    Agree 16 data.toBitVec (parseOctets [192, 168, 0, 0]).toBitVec

/-- The range is the one of the integers, the private addresses are those of the subnets, and no
private address is routable. -/
structure Ranges (ip start finish : Ipv4) : Prop where
  inRange : ip.inRange start finish = true ↔
    start.data.toNat ≤ ip.data.toNat ∧ ip.data.toNat ≤ finish.data.toNat
  isPrivate : ∃ b, ip.isPrivate = some b ∧ (b = true ↔ InPrivate ip.data)
  isNonroutable : ip.isPrivate = some true → ip.isNonroutable = some true

/-! ## The comparison -/

theorem compare_toNat8 (x y : UInt8) : compare x y = compare x.toNat y.toNat := by
  simp only [compare, compareOfLessAndEq, UInt8.lt_iff_toNat_lt, UInt8.toNat_inj]

theorem spaceship_eq_lt_iff (a b : Ipv4) :
    a.spaceship b = .lt ↔ a.data.toNat < b.data.toNat ∨
      a.data.toNat = b.data.toNat ∧ a.prefixValue.toNat < b.prefixValue.toNat := by
  rw [spaceship, compare_toNat, compare_toNat8, Ordering.then_eq_lt, Nat.compare_eq_lt,
    Nat.compare_eq_eq, Nat.compare_eq_lt]

theorem spaceship_eq_gt_iff (a b : Ipv4) :
    a.spaceship b = .gt ↔ b.data.toNat < a.data.toNat ∨
      a.data.toNat = b.data.toNat ∧ b.prefixValue.toNat < a.prefixValue.toNat := by
  rw [spaceship, compare_toNat, compare_toNat8, Ordering.then_eq_gt, Nat.compare_eq_gt,
    Nat.compare_eq_eq, Nat.compare_eq_gt]

theorem inRange_iff (ip start finish : Ipv4) :
    ip.inRange start finish = true ↔
      (start.data.toNat < ip.data.toNat ∨ start.data.toNat = ip.data.toNat ∧
        start.prefixValue.toNat ≤ ip.prefixValue.toNat) ∧
      (ip.data.toNat < finish.data.toNat ∨ ip.data.toNat = finish.data.toNat ∧
        ip.prefixValue.toNat ≤ finish.prefixValue.toNat) := by
  rw [inRange, Bool.and_eq_true, bne_iff_ne, bne_iff_ne, ne_eq, ne_eq, spaceship_eq_lt_iff,
    spaceship_eq_gt_iff]
  omega

/-! ## Subnets -/

theorem inPrivate_iff (data : UInt32) :
    InPrivate data ↔
      (0x0A000000 ≤ data.toNat ∧ data.toNat ≤ 0x0AFFFFFF) ∨
        (0xAC100000 ≤ data.toNat ∧ data.toNat ≤ 0xAC1FFFFF) ∨
        (0xC0A80000 ≤ data.toNat ∧ data.toNat ≤ 0xC0A8FFFF) := by
  have hA : (parseOctets [10, 0, 0, 0]).toBitVec.toNat = 0x0A000000 := by decide
  have hB : (parseOctets [172, 16, 0, 0]).toBitVec.toNat = 0xAC100000 := by decide
  have hC : (parseOctets [192, 168, 0, 0]).toBitVec.toNat = 0xC0A80000 := by decide
  rw [InPrivate, agree_iff_div (by decide), agree_iff_div (by decide), agree_iff_div (by decide),
    hA, hB, hC, UInt32.toNat_toBitVec]
  omega

/-! ## Where the ranges are right -/

theorem isPrivate_eq (ip : Ipv4) :
    ∃ b, ip.isPrivate = some b ∧ (b = true ↔
      (0x0A000000 ≤ ip.data.toNat ∧ ip.data.toNat ≤ 0x0AFFFFFF) ∨
        ip.inRange ⟨parseOctets [172, 16, 0, 0], 255⟩ ⟨parseOctets [172, 31, 255, 255], 255⟩ =
          true ∨
        (0xC0A80000 ≤ ip.data.toNat ∧ ip.data.toNat ≤ 0xC0A8FFFF)) := by
  obtain ⟨c, hc, hcAgree⟩ :=
    ip.isInSubnet_eq (parseOctets [192, 168, 0, 0]) (show 1 ≤ 16 by decide) (by decide)
  obtain ⟨a, ha, haAgree⟩ :=
    ip.isInSubnet_eq (parseOctets [10, 0, 0, 0]) (show 1 ≤ 8 by decide) (by decide)
  have hA : (parseOctets [10, 0, 0, 0]).toBitVec.toNat = 0x0A000000 := by decide
  have hC : (parseOctets [192, 168, 0, 0]).toBitVec.toNat = 0xC0A80000 := by decide
  rw [agree_iff_div (by decide), hC, UInt32.toNat_toBitVec] at hcAgree
  rw [agree_iff_div (by decide), hA, UInt32.toNat_toBitVec] at haAgree
  have hcRange : c = true ↔ 0xC0A80000 ≤ ip.data.toNat ∧ ip.data.toNat ≤ 0xC0A8FFFF := by
    rw [hcAgree]
    omega
  have haRange : a = true ↔ 0x0A000000 ≤ ip.data.toNat ∧ ip.data.toNat ≤ 0x0AFFFFFF := by
    rw [haAgree]
    omega
  rw [← hcRange, ← haRange]
  refine ⟨a || (ip.inRange ⟨parseOctets [172, 16, 0, 0], 255⟩
    ⟨parseOctets [172, 31, 255, 255], 255⟩ || c), ?_, by rw [Bool.or_eq_true, Bool.or_eq_true]⟩
  rw [isPrivate]
  change ip.isInSubnet ⟨parseOctets [192, 168, 0, 0], 16⟩ = some c at hc
  change ip.isInSubnet ⟨parseOctets [10, 0, 0, 0], 8⟩ = some a at ha
  change (ip.isInSubnet ⟨parseOctets [192, 168, 0, 0], 16⟩).bind (fun inClassC =>
    if inClassC || ip.inRange ⟨parseOctets [172, 16, 0, 0], 255⟩
      ⟨parseOctets [172, 31, 255, 255], 255⟩ then some true
    else ip.isInSubnet ⟨parseOctets [10, 0, 0, 0], 8⟩) = _
  rw [hc, ha, Option.bind_some]
  cases a <;> cases c <;>
    cases ip.inRange ⟨parseOctets [172, 16, 0, 0], 255⟩ ⟨parseOctets [172, 31, 255, 255], 255⟩ <;>
    rfl

theorem inRange_classB_iff (ip : Ipv4) :
    ip.inRange ⟨parseOctets [172, 16, 0, 0], 255⟩ ⟨parseOctets [172, 31, 255, 255], 255⟩ = true ↔
      (0xAC100000 ≤ ip.data.toNat ∧ ip.data.toNat ≤ 0xAC1FFFFF) ∧
        (ip.data.toNat = 0xAC100000 → ip.prefixValue.toNat = 255) := by
  have hstart : (parseOctets [172, 16, 0, 0]).toNat = 0xAC100000 := by decide
  have hfinish : (parseOctets [172, 31, 255, 255]).toNat = 0xAC1FFFFF := by decide
  have hpre : (255 : UInt8).toNat = 255 := rfl
  have hlt := ip.prefixValue.toNat_lt
  rw [inRange_iff]
  dsimp only
  rw [hstart, hfinish, hpre]
  omega

theorem isPrivate_right_iff (ip : Ipv4) :
    (∃ b, ip.isPrivate = some b ∧ (b = true ↔ InPrivate ip.data)) ↔
      (ip.data.toNat = 0xAC100000 → ip.prefixValue.toNat = 255) := by
  obtain ⟨b, hb, hbIff⟩ := isPrivate_eq ip
  rw [inRange_classB_iff] at hbIff
  have hright : (b = true ↔ InPrivate ip.data) ↔
      (ip.data.toNat = 0xAC100000 → ip.prefixValue.toNat = 255) := by
    rw [hbIff, inPrivate_iff]
    omega
  rw [← hright]
  constructor
  · rintro ⟨b', hb', hright⟩
    obtain rfl : b = b' := Option.some_inj.mp (hb.symm.trans hb')
    exact hright
  · exact fun hright => ⟨b, hb, hright⟩

theorem isPublic_right {ip : Ipv4}
    (h : ∃ b, ip.isPrivate = some b ∧ (b = true ↔ InPrivate ip.data)) :
    ∃ b, ip.isPublic = some b ∧ (b = true ↔ ¬ InPrivate ip.data) := by
  obtain ⟨b, hb, hright⟩ := h
  refine ⟨!b, by rw [isPublic, hb, Option.map_some], ?_⟩
  rw [← hright, Bool.not_eq_true', Bool.not_eq_true]

theorem inRange_right_iff (ip start finish : Ipv4) :
    (ip.inRange start finish = true ↔
      start.data.toNat ≤ ip.data.toNat ∧ ip.data.toNat ≤ finish.data.toNat) ↔
      (start.data.toNat ≤ ip.data.toNat → ip.data.toNat ≤ finish.data.toNat →
        (start.data.toNat = ip.data.toNat →
          start.prefixValue.toNat ≤ ip.prefixValue.toNat) ∧
        (ip.data.toNat = finish.data.toNat →
          ip.prefixValue.toNat ≤ finish.prefixValue.toNat)) := by
  rw [inRange_iff]
  omega

theorem isNonroutable_of_isPrivate {ip : Ipv4} (h : ip.isPrivate = some true) :
    ip.isNonroutable = some true := by
  rw [isNonroutable, h, Option.map_some]
  simp only [Bool.true_or]

/-- The ranges are right, if and only if the prefixes do not decide at a bound that is met, and
the first private address of class B has no prefix. -/
theorem ranges_iff (ip start finish : Ipv4) :
    ip.Ranges start finish ↔
      (start.data.toNat ≤ ip.data.toNat → ip.data.toNat ≤ finish.data.toNat →
        (start.data.toNat = ip.data.toNat →
          start.prefixValue.toNat ≤ ip.prefixValue.toNat) ∧
        (ip.data.toNat = finish.data.toNat →
          ip.prefixValue.toNat ≤ finish.prefixValue.toNat)) ∧
      (ip.data.toNat = 0xAC100000 → ip.prefixValue.toNat = 255) := by
  rw [← inRange_right_iff, ← isPrivate_right_iff]
  exact ⟨fun h => ⟨h.inRange, h.isPrivate⟩, fun h => ⟨h.1, h.2, isNonroutable_of_isPrivate⟩⟩

/-- The address is not in a range that starts at itself without a prefix, and not private as the
first address of class B, if it has a prefix. -/
theorem not_ranges_prefix :
    ¬ (Ipv4.mk 0x0A000001 8).Ranges ⟨0x0A000001, 255⟩ ⟨0x0A000002, 255⟩ ∧
      ¬ (Ipv4.mk 0xAC100000 12).Ranges ⟨0xAC100000, 12⟩ ⟨0xAC100000, 12⟩ ∧
      (Ipv4.mk 0x0A000001 8).inRange ⟨0x0A000001, 255⟩ ⟨0x0A000002, 255⟩ = false ∧
      (Ipv4.mk 0xAC100000 12).isPrivate = some false ∧
      (Ipv4.mk 0xAC100000 255).isPrivate = some true := by
  refine ⟨fun h => ?_, fun h => ?_, by decide, by decide, by decide⟩
  · exact absurd (h.inRange.mpr (by decide)) (by decide)
  · exact absurd ((isPrivate_right_iff _).mp h.isPrivate) (by decide)

end Ipv4

end Webpp.Ip
