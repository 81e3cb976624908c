import Webpp.Ip.Assignment
import Webpp.Ip.Ipv4Masks

/-!
# Subnet masks

`is::subnet` looks at each octet for itself. For octets it shifts the leading ones of a byte out,
and what follows the first byte that is not full is not compared with it. For a text the same
function gets a word, so that only zero is a mask to it, and the answer is inverted: every octet
passes but zero. Behind each of the first three octets a dot is removed, also where the text ends.
-/

namespace Webpp.Ip

open Webpp.Text LeadingBits

variable {str : List Char} {fields : List (List Char)} {q : List UInt8}

/-! ## The functions -/

def subnetOctet {w : ℕ} (octet : BitVec w) : Bool := dropOnes w octet == 0

/-- `is::digit` of a text -/
def isDigits (str : List Char) : Bool := str.all isDigit && !str.isEmpty

/-- The loop of `is::subnet`, with the rounds that are left. There is no answer, when it removes
more characters than the text has. -/
def subnetTextLoop : ℕ → List Char → Option Bool
  | 0, str => some str.isEmpty
  | rounds + 1, str =>
    let octetStr := str.takeWhile (· ≠ '.')
    if 3 < octetStr.length || !isDigits octetStr then some false
    else
      let octetInt := numeralValue octetStr
      if 255 < octetInt || subnetOctet (BitVec.ofNat 32 octetInt) then some false
      else
        let removed := octetStr.length + if rounds ≠ 0 then 1 else 0
        if str.length < removed then none else subnetTextLoop rounds (str.drop removed)

/-- `is::subnet` of a text -/
def subnetText (str : List Char) : Option Bool := subnetTextLoop 4 str

/-- `is::subnet` of octets -/
def subnet (octets : List UInt8) : Bool := octets.all fun octet => subnetOctet octet.toBitVec

/-- `to_prefix` of a text; `bin` is what the uninitialised array of octets contains. -/
def toPrefixText (bin : Vector UInt8 4) (str : List Char) : ℕ :=
  let r := inetPton4 str bin.toList 0 '/'
  if r.status = .valid then toPrefixArray r.bytes 0 else 0

/-- The prefix of an object that is constructed with a subnet. -/
def subnetPrefix (isSubnet : Bool) (toPrefix : ℕ) : UInt8 :=
  if isSubnet then UInt8.ofNat toPrefix else InetPton4Status.invalidPrefix.prefixStatus

/-- The prefix of a subnet that is a text. -/
def subnetTextPrefix (bin : Vector UInt8 4) (str : List Char) : Option UInt8 :=
  (subnetText str).map fun isSubnet => subnetPrefix isSubnet (toPrefixText bin str)

/-- The prefix of a subnet of octets. -/
def subnetArrayPrefix (octets : List UInt8) : UInt8 :=
  subnetPrefix (subnet octets) (toPrefixArray octets 0)

namespace Ipv4

/-- The constructor from two texts. -/
def ofTexts (bin subnetBin : Vector UInt8 4) (ipAddr str : List Char) : Option Ipv4 :=
  let ip := ofText bin ipAddr
  if ip.isValid then (subnetTextPrefix subnetBin str).map fun p => { ip with prefixValue := p }
  else some ip

/-- The constructor from a text and the octets of a subnet. -/
def ofTextArray (bin : Vector UInt8 4) (ipAddr : List Char) (octets : List UInt8) : Ipv4 :=
  let ip := ofText bin ipAddr
  if ip.isValid then { ip with prefixValue := subnetArrayPrefix octets } else ip

/-- The constructor from an integer and a text. -/
def ofIntegerText (bin : Vector UInt8 4) (ipAddr : UInt32) (str : List Char) : Option Ipv4 :=
  (subnetTextPrefix bin str).map (Ipv4.mk ipAddr)

/-- The constructor from octets and a text. -/
def ofArrayText (bin : Vector UInt8 4) (ipAddr : List UInt8) (str : List Char) : Option Ipv4 :=
  (subnetTextPrefix bin str).map (Ipv4.mk (parseOctets ipAddr))

/-- The constructor from four octets and a text. -/
def ofOctetsText (bin : Vector UInt8 4) (octet1 octet2 octet3 octet4 : UInt8) (str : List Char) :
    Option Ipv4 :=
  (subnetTextPrefix bin str).map (Ipv4.mk (parseOctets [octet1, octet2, octet3, octet4]))

/-- The constructor from octets and the octets of a subnet. -/
def ofArrays (ipAddr octets : List UInt8) : Ipv4 :=
  ⟨parseOctets ipAddr, subnetArrayPrefix octets⟩

end Ipv4

/-! ## Netmasks -/

/-- Four octets that are `n` ones, and zeros behind them. -/
def Netmask (q : List UInt8) (n : ℕ) : Prop :=
  q.length = 4 ∧ IsMask (Ipv4.parseOctets q).toBitVec n

/-- At most three digits with the value of the octet. -/
structure DecimalOctet (str : List Char) (octet : UInt8) : Prop where
  ne_nil : str ≠ []
  length_le : str.length ≤ 3
  digits : ∀ c ∈ str, isDigit c = true
  value : numeralValue str = octet.toNat

/-- The text has the octets of a netmask between its dots. -/
def NetmaskText (str : List Char) (n : ℕ) : Prop :=
  ∃ q, List.Forall₂ DecimalOctet (str.splitOn '.') q ∧ Netmask q n

/-- The object has the prefix of the mask, or the status that there is none. -/
def TakesMask (mask : ℕ → Prop) (data : UInt32) (ip : Option Ipv4) : Prop :=
  ∃ p, ip = some ⟨data, p⟩ ∧ (∀ n, mask n → p.toNat = n) ∧
    ((¬ ∃ n, mask n) → p = InetPton4Status.invalidPrefix.prefixStatus)

/-- The text is a subnet, if and only if it is a netmask, and the constructors take its prefix. -/
structure TakesText (str : List Char) : Prop where
  subnet : ∃ b, subnetText str = some b ∧ (b = true ↔ ∃ n, NetmaskText str n)
  ofTexts : ∀ bin subnetBin ipAddr, (Ipv4.ofText bin ipAddr).isValid = true →
    TakesMask (NetmaskText str) (Ipv4.ofText bin ipAddr).data
      (Ipv4.ofTexts bin subnetBin ipAddr str)
  ofIntegerText : ∀ bin ipAddr,
    TakesMask (NetmaskText str) ipAddr (Ipv4.ofIntegerText bin ipAddr str)
  ofArrayText : ∀ bin ipAddr,
    TakesMask (NetmaskText str) (Ipv4.parseOctets ipAddr) (Ipv4.ofArrayText bin ipAddr str)
  ofOctetsText : ∀ bin a b c d,
    TakesMask (NetmaskText str) (Ipv4.parseOctets [a, b, c, d])
      (Ipv4.ofOctetsText bin a b c d str)

/-- The octets are a subnet, if and only if they are a netmask, and the constructors take its
prefix. -/
structure TakesArray (q : List UInt8) : Prop where
  subnet : subnet q = true ↔ ∃ n, Netmask q n
  ofTextArray : ∀ bin ipAddr, (Ipv4.ofText bin ipAddr).isValid = true →
    TakesMask (Netmask q) (Ipv4.ofText bin ipAddr).data (some (Ipv4.ofTextArray bin ipAddr q))
  ofArrays : ∀ ipAddr,
    TakesMask (Netmask q) (Ipv4.parseOctets ipAddr) (some (Ipv4.ofArrays ipAddr q))

/-! ## Octets -/

theorem subnetOctet_iff {w : ℕ} {octet : BitVec w} :
    subnetOctet octet = true ↔ ∃ n, IsMask octet n := by
  rw [subnetOctet, beq_iff_eq, dropOnes_eq_zero_iff]

theorem subnetOctet_ofNat_iff {value : ℕ} (h : value ≤ 255) :
    subnetOctet (BitVec.ofNat 32 value) = true ↔ value = 0 := by
  have hnat : (BitVec.ofNat 32 value).toNat = value := by
    rw [BitVec.toNat_ofNat, Nat.mod_eq_of_lt (by omega)]
  have hfirst : (BitVec.ofNat 32 value).getMsbD 0 = false := by
    rw [← BitVec.msb_eq_getMsbD_zero, BitVec.msb_eq_decide, hnat]
    exact decide_eq_false (by omega)
  rw [subnetOctet, beq_iff_eq, dropOnes_of_zero hfirst, ← BitVec.toNat_inj, hnat]
  rfl

theorem subnet_iff {octets : List UInt8} :
    subnet octets = true ↔ ∀ octet ∈ octets, ∃ n, IsMask octet.toBitVec n := by
  rw [subnet, List.all_eq_true]
  exact forall₂_congr fun _ _ => subnetOctet_iff

theorem netmask_iff (h : q.length = 4) {n : ℕ} :
    Netmask q n ↔ IsByteMask q n := by
  rw [Netmask, and_iff_right h, Ipv4.isMask_parseOctets_iff h]

theorem exists_netmask_iff (h : q.length = 4) :
    (∃ n, Netmask q n) ↔ ∃ n, IsByteMask q n :=
  exists_congr fun _ => netmask_iff h

/-! ## Where octets are taken -/

theorem takesMask_subnetPrefix {mask : ℕ → Prop} {b : Bool} {value : ℕ}
    (hb : b = true ↔ ∃ n, mask n) (hvalue : ∀ n, mask n → n ≤ 32 ∧ value = n) (data : UInt32) :
    TakesMask mask data (some ⟨data, subnetPrefix b value⟩) := by
  refine ⟨_, rfl, fun n hn => ?_, fun hnone => ?_⟩
  · obtain ⟨hle, rfl⟩ := hvalue n hn
    rw [subnetPrefix, if_pos (hb.mpr ⟨_, hn⟩), UInt8.toNat_ofNat', Nat.mod_eq_of_lt (by omega)]
  · rw [subnetPrefix, if_neg fun htrue => hnone (hb.mp htrue)]

theorem takesArray_iff (h : q.length = 4) :
    TakesArray q ↔
      ((∀ octet ∈ q, ∃ n, IsMask octet.toBitVec n) → q.Pairwise fun b b' => b' ≠ 0 → b = 255) := by
  have hright : (subnet q = true ↔ ∃ n, Netmask q n) ↔
      ((∀ octet ∈ q, ∃ n, IsMask octet.toBitVec n) →
        q.Pairwise fun b b' => b' ≠ 0 → b = 255) := by
    rw [subnet_iff, exists_netmask_iff h, exists_isByteMask_iff]
    exact iff_self_and
  rw [← hright]
  refine ⟨TakesArray.subnet, fun hsubnet => ?_⟩
  have hvalue : ∀ n, Netmask q n → n ≤ 32 ∧ toPrefixArray q 0 = n := by
    intro n hn
    rw [toPrefixArray_of_isByteMask ((netmask_iff h).mp hn), Nat.zero_add]
    exact ⟨hn.2.le, rfl⟩
  have htakes := takesMask_subnetPrefix hsubnet hvalue
  refine ⟨hsubnet, fun bin ipAddr hvalid => ?_, fun ipAddr => htakes _⟩
  rw [Ipv4.ofTextArray, if_pos hvalid]
  exact htakes _

/-! ## The octets of a text -/

theorem isDigits_iff :
    isDigits str = true ↔ str ≠ [] ∧ ∀ c ∈ str, isDigit c = true := by
  rw [isDigits, Bool.and_eq_true, List.all_eq_true, Bool.not_eq_true', List.isEmpty_eq_false_iff,
    and_comm]

/-- The loop goes on behind an octet, if it is not zero. -/
def Passes (octetStr : List Char) : Prop := ∃ octet, DecimalOctet octetStr octet ∧ octet ≠ 0

theorem passes_iff {octetStr : List Char} :
    Passes octetStr ↔ ¬(3 < octetStr.length || !isDigits octetStr) = true ∧
      ¬(255 < numeralValue octetStr ||
        subnetOctet (BitVec.ofNat 32 (numeralValue octetStr))) = true := by
  rw [Bool.or_eq_true, decide_eq_true_iff, Bool.not_eq_true', Bool.or_eq_true, decide_eq_true_iff,
    not_or, not_or, Bool.not_eq_false, isDigits_iff]
  constructor
  · rintro ⟨octet, h, hne⟩
    have hlt := octet.toNat_lt
    have hvalue := h.value
    refine ⟨⟨Nat.not_lt.mpr h.length_le, h.ne_nil, h.digits⟩, by omega, ?_⟩
    rw [subnetOctet_ofNat_iff (by omega), hvalue]
    exact fun hzero => hne (UInt8.toNat_inj.mp hzero)
  · rintro ⟨⟨hlen, hne, hdigits⟩, hle, hzero⟩
    rw [subnetOctet_ofNat_iff (by omega)] at hzero
    have hnat : (UInt8.ofNat (numeralValue octetStr)).toNat = numeralValue octetStr := by
      rw [UInt8.toNat_ofNat', Nat.mod_eq_of_lt (by omega)]
    refine ⟨UInt8.ofNat (numeralValue octetStr), ⟨hne, by omega, hdigits, hnat.symm⟩, ?_⟩
    intro heq
    rw [heq] at hnat
    exact hzero hnat.symm

theorem DecimalOctet.unique {octet octet' : UInt8} (h : DecimalOctet str octet)
    (h' : DecimalOctet str octet') : octet = octet' :=
  UInt8.toNat_inj.mp (h.value.symm.trans h'.value)

theorem decimalOctets_unique {q q' : List UInt8}
    (h : List.Forall₂ DecimalOctet fields q) (h' : List.Forall₂ DecimalOctet fields q') :
    q = q' := by
  induction h generalizing q' with
  | nil =>
    cases h'
    rfl
  | cons hd _ ih =>
    cases h' with
    | cons hd' hrest => rw [hd.unique hd', ih hrest]

theorem forall_passes_iff
    (h : List.Forall₂ DecimalOctet fields q) : (∀ d ∈ fields, Passes d) ↔ 0 ∉ q := by
  induction h with
  | nil => exact iff_of_true (by simp) (by simp)
  | @cons d octet fields q hd _ ih =>
    have hpasses : Passes d ↔ octet ≠ 0 :=
      ⟨fun ⟨octet', hd', hne⟩ => hd.unique hd' ▸ hne, fun hne => ⟨octet, hd, hne⟩⟩
    rw [List.forall_mem_cons, ih, hpasses, List.mem_cons, not_or, ne_comm]

theorem exists_decimalOctets (h : ∀ d ∈ fields, Passes d) :
    ∃ q, List.Forall₂ DecimalOctet fields q := by
  induction fields with
  | nil => exact ⟨[], .nil⟩
  | cons d fields ih =>
    obtain ⟨⟨octet, hd, -⟩, hrest⟩ := List.forall_mem_cons.mp h
    obtain ⟨q, hq⟩ := ih hrest
    exact ⟨octet :: q, .cons hd hq⟩

/-! ## The loop over a text -/

theorem exists_field (str : List Char) :
    ('.' ∉ str ∧ str.splitOn '.' = [str] ∧ str.takeWhile (· ≠ '.') = str) ∨
      ∃ d rest, str = d ++ '.' :: rest ∧ str.splitOn '.' = d :: rest.splitOn '.' ∧
        str.takeWhile (· ≠ '.') = d := by
  have htake : ∀ d : List Char, '.' ∉ d → ∀ c ∈ d, decide (c ≠ '.') = true := by
    intro d hd c hc
    rw [decide_eq_true_iff]
    rintro rfl
    exact hd hc
  by_cases hdot : '.' ∈ str
  · obtain ⟨d, rest, rfl, hd⟩ := List.eq_append_cons_of_mem hdot
    refine Or.inr ⟨d, rest, rfl, List.splitOn_append_cons_self_of_not_mem hd rest, ?_⟩
    rw [List.takeWhile_append_of_pos (htake d hd), List.takeWhile_cons_of_neg (by decide),
      List.append_nil]
  · exact Or.inl ⟨hdot, List.splitOn_eq_singleton hdot,
      List.takeWhile_eq_self_iff.mpr (htake str hdot)⟩

theorem subnetTextLoop_of_not_passes {str d : List Char} (htake : str.takeWhile (· ≠ '.') = d)
    (h : ¬ Passes d) (rounds : ℕ) : subnetTextLoop (rounds + 1) str = some false := by
  rw [passes_iff, not_and, not_not] at h
  rw [subnetTextLoop, htake]
  by_cases hdigits : (decide (3 < d.length) || !isDigits d) = true
  · rw [if_pos hdigits]
  · rw [if_neg hdigits]
    dsimp only
    rw [if_pos (h hdigits)]

theorem subnetTextLoop_of_passes {str d : List Char} (htake : str.takeWhile (· ≠ '.') = d)
    (h : Passes d) (rounds : ℕ) :
    subnetTextLoop (rounds + 1) str =
      if str.length < d.length + (if rounds ≠ 0 then 1 else 0) then none
      else subnetTextLoop rounds (str.drop (d.length + if rounds ≠ 0 then 1 else 0)) := by
  obtain ⟨hdigits, hvalue⟩ := passes_iff.mp h
  rw [subnetTextLoop, htake, if_neg hdigits]
  dsimp only
  rw [if_neg hvalue]

theorem subnetTextLoop_last {d : List Char} (htake : d.takeWhile (· ≠ '.') = d) (h : Passes d)
    (rounds : ℕ) :
    subnetTextLoop (rounds + 1) d = if rounds ≠ 0 then none else some true := by
  rw [subnetTextLoop_of_passes htake h]
  cases rounds with
  | zero =>
    have hdrop : d.drop (d.length + 0) = [] := List.drop_eq_nil_of_le (Nat.le_refl _)
    rw [if_neg (not_not_intro rfl), if_neg (by omega), hdrop, if_neg (not_not_intro rfl)]
    rfl
  | succ rounds =>
    rw [if_pos (Nat.succ_ne_zero rounds), if_pos (Nat.lt_succ_self _),
      if_pos (Nat.succ_ne_zero rounds)]

theorem subnetTextLoop_dot {d rest : List Char}
    (htake : (d ++ '.' :: rest).takeWhile (· ≠ '.') = d) (h : Passes d) (rounds : ℕ) :
    subnetTextLoop (rounds + 1) (d ++ '.' :: rest) =
      if rounds ≠ 0 then subnetTextLoop rounds rest else some false := by
  have hlen : (d ++ '.' :: rest).length = d.length + (rest.length + 1) := by
    rw [List.length_append, List.length_cons]
  rw [subnetTextLoop_of_passes htake h, hlen]
  cases rounds with
  | zero =>
    rw [if_neg (not_not_intro rfl), if_neg (by omega), if_neg (not_not_intro rfl), Nat.add_zero,
      List.drop_left]
    rfl
  | succ rounds =>
    have hdrop : (d ++ '.' :: rest).drop (d.length + 1) = rest := by
      rw [List.drop_append, List.drop_eq_nil_of_le (by omega), Nat.add_sub_cancel_left]
      rfl
    rw [if_pos (Nat.succ_ne_zero rounds), if_neg (by omega), hdrop,
      if_pos (Nat.succ_ne_zero rounds)]

theorem subnetTextLoop_iff_of_not_passes {str d : List Char}
    (hsplit : str.splitOn '.' = d :: fields) (htake : str.takeWhile (· ≠ '.') = d)
    (h : ¬ Passes d) (rounds : ℕ) :
    (subnetTextLoop (rounds + 1) str = none ↔
        (∀ d ∈ str.splitOn '.', Passes d) ∧ (str.splitOn '.').length ≤ rounds) ∧
      (subnetTextLoop (rounds + 1) str = some true ↔
        (∀ d ∈ str.splitOn '.', Passes d) ∧ (str.splitOn '.').length = rounds + 1) := by
  have hnot : ¬ ∀ d ∈ str.splitOn '.', Passes d := by
    rw [hsplit, List.forall_mem_cons]
    exact fun hall => h hall.1
  rw [subnetTextLoop_of_not_passes htake h]
  exact ⟨iff_of_false (Option.some_ne_none _) fun hall => hnot hall.1,
    iff_of_false (by decide) fun hall => hnot hall.1⟩

/-- The loop runs out of characters, if all octets pass, and there are less of them than rounds;
and it is satisfied with so many octets that pass as there are rounds. -/
theorem subnetTextLoop_iff (rounds : ℕ) (str : List Char) :
    (subnetTextLoop (rounds + 1) str = none ↔
        (∀ d ∈ str.splitOn '.', Passes d) ∧ (str.splitOn '.').length ≤ rounds) ∧
      (subnetTextLoop (rounds + 1) str = some true ↔
        (∀ d ∈ str.splitOn '.', Passes d) ∧ (str.splitOn '.').length = rounds + 1) := by
  induction rounds generalizing str with
  | zero =>
    obtain ⟨-, hsplit, htake⟩ | ⟨d, rest, rfl, hsplit, htake⟩ := exists_field str
    · by_cases h : Passes str
      · rw [subnetTextLoop_last htake h, if_neg (not_not_intro rfl), hsplit,
          List.forall_mem_singleton, List.length_singleton]
        exact ⟨iff_of_false (Option.some_ne_none _) (by omega), iff_of_true rfl ⟨h, rfl⟩⟩
      · exact subnetTextLoop_iff_of_not_passes hsplit htake h 0
    · by_cases h : Passes d
      · have hpos : 0 < (rest.splitOn '.').length :=
          List.length_pos_of_ne_nil (List.splitOn_ne_nil '.' rest)
        rw [subnetTextLoop_dot htake h, if_neg (not_not_intro rfl), hsplit, List.length_cons]
        exact ⟨iff_of_false (Option.some_ne_none _) (fun hall => by omega),
          iff_of_false (by decide) (fun hall => by omega)⟩
      · exact subnetTextLoop_iff_of_not_passes hsplit htake h 0
  | succ rounds ih =>
    obtain ⟨-, hsplit, htake⟩ | ⟨d, rest, rfl, hsplit, htake⟩ := exists_field str
    · by_cases h : Passes str
      · rw [subnetTextLoop_last htake h, if_pos (Nat.succ_ne_zero rounds), hsplit,
          List.forall_mem_singleton, List.length_singleton]
        exact ⟨iff_of_true rfl ⟨h, by omega⟩, iff_of_false (by decide) (by omega)⟩
      · exact subnetTextLoop_iff_of_not_passes hsplit htake h (rounds + 1)
    · by_cases h : Passes d
      · rw [subnetTextLoop_dot htake h, if_pos (Nat.succ_ne_zero rounds), (ih rest).1, (ih rest).2,
          hsplit, List.forall_mem_cons, List.length_cons, Nat.add_le_add_iff_right,
          Nat.add_right_cancel_iff, and_iff_right h]
        exact ⟨Iff.rfl, Iff.rfl⟩
      · exact subnetTextLoop_iff_of_not_passes hsplit htake h (rounds + 1)

theorem subnetText_eq_none_iff :
    subnetText str = none ↔ (∀ d ∈ str.splitOn '.', Passes d) ∧ (str.splitOn '.').length ≤ 3 :=
  (subnetTextLoop_iff 3 str).1

theorem subnetText_eq_true_iff :
    subnetText str = some true ↔
      (∀ d ∈ str.splitOn '.', Passes d) ∧ (str.splitOn '.').length = 4 :=
  (subnetTextLoop_iff 3 str).2

/-! ## Netmasks without zeros -/

theorem DecimalOctet.eq_toDigits {octet : UInt8} (h : DecimalOctet str octet)
    (hlarge : 100 ≤ octet.toNat) : str = Nat.toDigits 10 octet.toNat := by
  have hvalue := h.value
  have hlen := h.length_le
  have hdigits := h.digits
  match str with
  | [] => exact absurd rfl h.ne_nil
  | [a] =>
    have ha := digitValue_lt (hdigits a (by simp))
    have hnum : numeralValue [a] = digitValue a := by simp [numeralValue]
    omega
  | [a, b] =>
    have ha := digitValue_lt (hdigits a (by simp))
    have hb := digitValue_lt (hdigits b (by simp))
    have hnum : numeralValue [a, b] = digitValue a * 10 + digitValue b := by simp [numeralValue]
    omega
  | [a, b, c] =>
    have hb := digitValue_lt (hdigits b (by simp))
    have hc := digitValue_lt (hdigits c (by simp))
    have hnum : numeralValue [a, b, c] =
        (digitValue a * 10 + digitValue b) * 10 + digitValue c := by
      simp [numeralValue]
    have ha : a ≠ '0' := by
      rintro rfl
      have hzero : digitValue '0' = 0 := rfl
      omega
    rw [← hvalue, ← withoutZeros_eq_toDigits h.ne_nil hdigits, withoutZeros_of_ne ha]
  | a :: b :: c :: d :: str =>
    rw [List.length_cons, List.length_cons, List.length_cons, List.length_cons] at hlen
    omega

theorem le_of_isMask {octet : UInt8} (h : ∃ n, IsMask octet.toBitVec n) (hne : octet ≠ 0) :
    128 ≤ octet.toNat := by
  obtain ⟨n, h⟩ := h
  have hpos : 0 < n := by
    refine Nat.pos_of_ne_zero ?_
    rintro rfl
    exact hne (isMask_byte_zero_iff.mp h)
  have hfirst : octet.toBitVec.msb = true := by
    rw [BitVec.msb_eq_getMsbD_zero, h.bit 0 (by decide), decide_eq_true hpos]
  rw [BitVec.msb_eq_decide, decide_eq_true_iff] at hfirst
  exact hfirst

theorem eq_map_toDigits
    (h : List.Forall₂ DecimalOctet fields q) (hlarge : ∀ octet ∈ q, 100 ≤ octet.toNat) :
    fields = q.map fun octet => Nat.toDigits 10 octet.toNat := by
  induction h with
  | nil => rfl
  | cons hd _ ih =>
    obtain ⟨hhead, htail⟩ := List.forall_mem_cons.mp hlarge
    rw [List.map_cons, ← hd.eq_toDigits hhead, ← ih htail]

/-- The prefix of a netmask without zeros is read from its text. -/
theorem toPrefixText_eq (bin : Vector UInt8 4) {n : ℕ}
    (h : List.Forall₂ DecimalOctet (str.splitOn '.') q) (hmask : Netmask q n) (hzero : 0 ∉ q) :
    toPrefixText bin str = n := by
  have hbytes := (netmask_iff hmask.1).mp hmask
  have hlarge : ∀ octet ∈ q, 100 ≤ octet.toNat := by
    intro octet hmem
    have hle := le_of_isMask ((exists_isByteMask_iff.mp ⟨n, hbytes⟩).1 octet hmem)
      (fun heq => hzero (heq ▸ hmem))
    omega
  have hstr : str = dottedQuad q := by
    rw [dottedQuad, ← eq_map_toDigits h hlarge, List.intercalate_splitOn]
  have hread : inetPton4 str bin.toList 0 '/' = ⟨.valid, [], q⟩ := by
    rw [hstr, ← inetNtop4_eq_dottedQuad hmask.1]
    exact inetPton4_inetNtop4_whole '/' hmask.1 (by simp)
  rw [toPrefixText, hread]
  dsimp only
  rw [if_pos rfl, toPrefixArray_of_isByteMask hbytes, Nat.zero_add]

/-! ## Where texts are taken -/

theorem exists_netmaskText_iff
    (h : List.Forall₂ DecimalOctet (str.splitOn '.') q) (hlen : q.length = 4) :
    (∃ n, NetmaskText str n) ↔ ∃ n, IsByteMask q n := by
  rw [← exists_netmask_iff hlen]
  refine exists_congr fun n => ⟨?_, fun hn => ⟨q, h, hn⟩⟩
  rintro ⟨q', h', hn⟩
  rwa [decimalOctets_unique h h']

theorem takesMask_subnetTextPrefix {b : Bool} (hb : subnetText str = some b)
    (hright : b = true ↔ ∃ n, NetmaskText str n) (bin : Vector UInt8 4) (data : UInt32) :
    TakesMask (NetmaskText str) data ((subnetTextPrefix bin str).map (Ipv4.mk data)) := by
  rw [subnetTextPrefix, hb, Option.map_some, Option.map_some]
  refine takesMask_subnetPrefix hright (fun n hn => ?_) data
  have htrue := hright.mpr ⟨n, hn⟩
  subst htrue
  obtain ⟨q, hq, hmask⟩ := hn
  have hzero := (forall_passes_iff hq).mp (subnetText_eq_true_iff.mp hb).1
  exact ⟨hmask.2.le, toPrefixText_eq bin hq hmask hzero⟩

theorem takesText_of_subnet
    (h : ∃ b, subnetText str = some b ∧ (b = true ↔ ∃ n, NetmaskText str n)) :
    TakesText str := by
  obtain ⟨b, hb, hright⟩ := h
  have htakes := takesMask_subnetTextPrefix hb hright
  refine ⟨⟨b, hb, hright⟩, fun bin subnetBin ipAddr hvalid => ?_,
    fun bin ipAddr => htakes bin ipAddr, fun bin ipAddr => htakes bin _,
    fun bin a b c d => htakes bin _⟩
  rw [Ipv4.ofTexts, if_pos hvalid]
  exact htakes subnetBin _

theorem subnetText_right_iff :
    (∃ b, subnetText str = some b ∧ (b = true ↔ ∃ n, NetmaskText str n)) ↔
      ¬((∀ d ∈ str.splitOn '.', Passes d) ∧ (str.splitOn '.').length ≤ 3) ∧
        ∀ q, q.length = 4 → List.Forall₂ DecimalOctet (str.splitOn '.') q →
          ((∃ n, IsByteMask q n) ↔ 0 ∉ q) := by
  rw [← subnetText_eq_none_iff]
  constructor
  · rintro ⟨b, hb, hright⟩
    refine ⟨hb ▸ Option.some_ne_none b, fun q hlen hq => ?_⟩
    rw [← exists_netmaskText_iff hq hlen, ← hright, ← forall_passes_iff hq,
      ← Option.some_inj, ← hb, subnetText_eq_true_iff, hq.length_eq]
    exact and_iff_left hlen
  · rintro ⟨hnone, hmasks⟩
    obtain ⟨b, hb⟩ := Option.ne_none_iff_exists'.mp hnone
    refine ⟨b, hb, ?_⟩
    rw [← Option.some_inj, ← hb, subnetText_eq_true_iff]
    constructor
    · rintro ⟨hpasses, hlen⟩
      obtain ⟨q, hq⟩ := exists_decimalOctets hpasses
      have hlen4 : q.length = 4 := hq.length_eq.symm.trans hlen
      rw [exists_netmaskText_iff hq hlen4, hmasks q hlen4 hq]
      exact (forall_passes_iff hq).mp hpasses
    · rintro ⟨n, q, hq, hmask⟩
      refine ⟨(forall_passes_iff hq).mpr ?_, hq.length_eq.trans hmask.1⟩
      exact (hmasks q hmask.1 hq).mp ⟨n, (netmask_iff hmask.1).mp hmask⟩

theorem takesText_iff :
    TakesText str ↔
      ¬((∀ d ∈ str.splitOn '.', Passes d) ∧ (str.splitOn '.').length ≤ 3) ∧
        ∀ q, q.length = 4 → List.Forall₂ DecimalOctet (str.splitOn '.') q →
          ((∃ n, IsByteMask q n) ↔ 0 ∉ q) := by
  rw [← subnetText_right_iff]
  exact ⟨TakesText.subnet, takesText_of_subnet⟩

/-- Octets are taken as they should be, if and only if some octet is no mask, or those in front of
one that is not zero are full. A text is, if and only if it is not one to three octets that are not
zero, and its four octets are a netmask exactly where none of them is zero. -/
theorem takes_iff (octets : Vector UInt8 4) (str : List Char) :
    (TakesArray octets.toList ↔
      ((∀ octet ∈ octets.toList, ∃ n, IsMask octet.toBitVec n) →
        octets.toList.Pairwise fun b b' => b' ≠ 0 → b = 255)) ∧
      (TakesText str ↔
        ¬((∀ d ∈ str.splitOn '.', Passes d) ∧ (str.splitOn '.').length ≤ 3) ∧
          ∀ q, q.length = 4 → List.Forall₂ DecimalOctet (str.splitOn '.') q →
            ((∃ n, IsByteMask q n) ↔ 0 ∉ q)) :=
  ⟨takesArray_iff (by simp), takesText_iff⟩

/-- A netmask is refused as a text, an address is taken, the text of one octet ends in front of the
dot that is removed, and octets are taken that are no mask together. -/
theorem not_takes :
    ¬ TakesText "255.255.255.0".toList ∧ ¬ TakesText "1.2.3.4".toList ∧
      ¬ TakesText "255".toList ∧ ¬ TakesArray [255, 0, 255, 0] ∧
      subnetText "255.255.255.0".toList = some false ∧
      subnetText "1.2.3.4".toList = some true ∧ subnetText "255".toList = none ∧
      subnet [255, 0, 255, 0] = true := by
  have hnone : subnetText "255".toList = none := by decide
  have htaken : subnet [255, 0, 255, 0] = true := by decide
  refine ⟨fun h => ?_, fun h => ?_, fun h => ?_, fun h => ?_, by decide, by decide, hnone, htaken⟩
  · have hq : List.Forall₂ DecimalOctet ("255.255.255.0".toList.splitOn '.') [255, 255, 255, 0] :=
      .cons ⟨by decide, by decide, by decide, by decide⟩
        (.cons ⟨by decide, by decide, by decide, by decide⟩
          (.cons ⟨by decide, by decide, by decide, by decide⟩
            (.cons ⟨by decide, by decide, by decide, by decide⟩ .nil)))
    exact absurd ((takesText_iff.mp h).2 _ rfl hq |>.mp ⟨24, by decide, by decide⟩) (by decide)
  · have hq : List.Forall₂ DecimalOctet ("1.2.3.4".toList.splitOn '.') [1, 2, 3, 4] :=
      .cons ⟨by decide, by decide, by decide, by decide⟩
        (.cons ⟨by decide, by decide, by decide, by decide⟩
          (.cons ⟨by decide, by decide, by decide, by decide⟩
            (.cons ⟨by decide, by decide, by decide, by decide⟩ .nil)))
    have hmask := ((takesText_iff.mp h).2 _ rfl hq).mpr (by decide)
    exact absurd (exists_isByteMask_iff.mp hmask).2 (by decide)
  · obtain ⟨b, hb, -⟩ := h.subnet
    exact Option.some_ne_none b (hb.symm.trans hnone)
  · have hmask := (exists_netmask_iff rfl).mp (h.subnet.mp htaken)
    exact absurd (exists_isByteMask_iff.mp hmask).2 (by decide)

end Webpp.Ip
