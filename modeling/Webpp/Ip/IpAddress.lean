import Webpp.Foundation.BigEndian
import Webpp.Ip.InetNtop6
import Webpp.Ip.Pton6Accepts

/-!
# `ipv4`, `ipv6` and `ip_address`

What `inet_ntop4` and `inet_ntop6` print is read back by `inet_pton4` and `inet_pton6`, and
`inet_pton4` reads nothing else. An address is built from a text with an optional prefix behind a `/`. One byte
next to the octets holds the prefix, or the status where there is none.

`ip_address` tries `ipv4` first, and `ipv6` only when the first parser stopped at a
character it does not know. An IPv6 text whose first digits are no decimal octet
makes it stop earlier (`ofText_holdsAddress_iff`).
-/

namespace Webpp.Ip

open Webpp.Text

variable {s : List Char} {bytes : List UInt8}

/-! ## Printing and parsing -/

theorem not_isAddressChar_slash : ¬ IsAddressChar '/' := by
  rintro (h | h | h)
  · exact absurd h (by decide)
  · exact absurd h (by decide)
  · exact absurd h (by decide)

theorem inetPton6_inetNtop6 {addr bytes : List UInt8} (haddr : addr.length = 16)
    (hbytes : bytes.length = 16) :
    inetPton6 (inetNtop6 addr) bytes '/' = ⟨.valid, [], addr⟩ := by
  obtain ⟨e, h⟩ := address_inetNtop6 haddr
  have hread := inetPton6_of_address not_isAddressChar_slash h hbytes (.finish e)
  rwa [List.append_nil] at hread

theorem length_inetNtop6_le {addr : List UInt8} (haddr : addr.length = 16) :
    (inetNtop6 addr).length ≤ maxIpv6StrLen := by
  obtain ⟨e, h⟩ := address_inetNtop6 haddr
  exact h.length_le

theorem inetPton4_inetNtop4_whole (special : Char) {addr bytes : List UInt8}
    (haddr : addr.length = 4) (hbytes : bytes.length = 4) :
    inetPton4 (inetNtop4 addr) bytes 0 special = ⟨.valid, [], addr⟩ := by
  have hread := inetPton4_inetNtop4 special [] haddr hbytes []
  simpa using hread

theorem length_inetNtop4_le {addr : List UInt8} (haddr : addr.length = 4) :
    (inetNtop4 addr).length ≤ maxIpv4StrLen := by
  rw [inetNtop4_eq_dottedQuad haddr]
  exact (length_dottedQuad haddr).2

/-- A text that `inet_pton4` accepts is a printed address, alone or before the
special character. -/
theorem inetPton4_accepts (special : Char) (s : List Char) (hbytes : bytes.length = 4)
    (hvalid : (inetPton4 s bytes 0 special).status.isValid = true) :
    ∃ addr rest, addr.length = 4 ∧ s = inetNtop4 addr ++ rest ∧
      Ends4 special addr rest (inetPton4 s bytes 0 special) := by
  have h := inetPton4_valid special s [] hbytes []
  simp only [List.nil_append, List.append_nil, List.length_nil] at h
  exact h hvalid

/-- Both printers stay within their maximal lengths and are inverted by the parsers;
the texts `inet_pton4` accepts are the ones `inet_ntop4` writes. -/
theorem ntop_pton_roundTrip :
    (∀ addr bytes : Vector UInt8 16,
      (inetNtop6 addr.toList).length ≤ maxIpv6StrLen ∧
        inetPton6 (inetNtop6 addr.toList) bytes.toList '/' = ⟨.valid, [], addr.toList⟩) ∧
    (∀ addr bytes : Vector UInt8 4,
      (inetNtop4 addr.toList).length ≤ maxIpv4StrLen ∧
        inetPton4 (inetNtop4 addr.toList) bytes.toList 0 '/' = ⟨.valid, [], addr.toList⟩) ∧
    ∀ (special : Char) (s : List Char) (bytes : Vector UInt8 4),
      (inetPton4 s bytes.toList 0 special).status.isValid = true →
        ∃ addr : Vector UInt8 4, ∃ rest, s = inetNtop4 addr.toList ++ rest ∧
          Ends4 special addr.toList rest (inetPton4 s bytes.toList 0 special) := by
  have hlen : ∀ {n : ℕ} (v : Vector UInt8 n), v.toList.length = n := fun v => by simp
  refine ⟨?_, ?_, ?_⟩
  · intro addr bytes
    exact ⟨length_inetNtop6_le (hlen addr), inetPton6_inetNtop6 (hlen addr) (hlen bytes)⟩
  · intro addr bytes
    exact ⟨length_inetNtop4_le (hlen addr), inetPton4_inetNtop4_whole '/' (hlen addr) (hlen bytes)⟩
  · intro special s bytes hvalid
    obtain ⟨addr, rest, haddr, hs, hends⟩ := inetPton4_accepts special s (hlen bytes) hvalid
    exact ⟨⟨addr.toArray, by simpa using haddr⟩, rest, hs, hends⟩

/-! ## Prefixes -/

/-- `details::parse_prefix`: a decimal number of at most three digits, -1 where
there is none. -/
def parsePrefix : List Char → Int
  | [] => -1
  | c1 :: src =>
      if ¬ isDigit c1 then -1
      else
        let value := digitValue c1
        match src with
        | [] => value
        | c2 :: src =>
            if ¬ isDigit c2 then -1
            else if value = 0 then -1
            else
              let value := value * 10 + digitValue c2
              match src with
              | [] => value
              | c3 :: src =>
                  if ¬ isDigit c3 then -1
                  else
                    let value := value * 10 + digitValue c3
                    if src ≠ [] then -1 else value

/-- `inet_pton4` with a prefix: its status, the octets, and the new value of the
prefix argument. -/
def inetPton4Prefix (src : List Char) (bytes : List UInt8) (value : UInt8)
    (prefixCharacter : Char) : InetPton4Status × List UInt8 × UInt8 :=
  let r := inetPton4 src bytes 0 prefixCharacter
  if r.status = .validSpecial ∧ r.src.head? = some prefixCharacter then
    let parsed := parsePrefix r.src.tail
    if parsed = -1 ∨ parsed > 32 then (.invalidPrefix, r.bytes, value)
    else (r.status, r.bytes, UInt8.ofNat parsed.toNat)
  else (r.status, r.bytes, value)

/-- `inet_pton6` with a prefix; the address is parsed with the default special
character. -/
def inetPton6Prefix (src : List Char) (bytes : List UInt8) (value : UInt8)
    (prefixCharacter : Char) : InetPton6Status × List UInt8 × UInt8 :=
  let r := inetPton6 src bytes '/'
  if r.status = .validSpecial ∧ r.src.head? = some prefixCharacter then
    let parsed := parsePrefix r.src.tail
    if parsed = -1 ∨ parsed > 128 then (.invalidPrefix, r.bytes, value)
    else (r.status, r.bytes, UInt8.ofNat parsed.toNat)
  else (r.status, r.bytes, value)

/-- An IPv4 address, or the status of the text that is none. -/
structure Ipv4 where
  data : UInt32
  prefixValue : UInt8
  deriving DecidableEq

/-- An IPv6 address, or the status of the text that is none. -/
structure Ipv6 where
  data : List UInt8
  prefixValue : UInt8
  deriving DecidableEq

/-- The integer of four octets. -/
def Ipv4.parseOctets (octets : List UInt8) : UInt32 :=
  ((octets.getD 0 0).toUInt32 <<< 24) ||| ((octets.getD 1 0).toUInt32 <<< 16) |||
    ((octets.getD 2 0).toUInt32 <<< 8) ||| (octets.getD 3 0).toUInt32

/-- `ipv4{str}`; `bin` is what the uninitialised array of octets contains. -/
def Ipv4.ofText (bin : Vector UInt8 4) (str : List Char) : Ipv4 :=
  let valid := InetPton4Status.valid.prefixStatus
  let r := inetPton4Prefix str bin.toList valid '/'
  if r.1.isValid then ⟨Ipv4.parseOctets r.2.1, r.2.2⟩ else ⟨0, r.1.prefixStatus⟩

/-- `ipv6{str}`; the octets start as zeros and are parsed in place. -/
def Ipv6.ofText (str : List Char) : Ipv6 :=
  let valid := InetPton6Status.valid.prefixStatus
  let r := inetPton6Prefix str (List.replicate 16 0) valid '/'
  if r.1.isValid then ⟨r.2.1, r.2.2⟩ else ⟨r.2.1, r.1.prefixStatus⟩

def Ipv4.isValid (ip : Ipv4) : Bool :=
  ip.prefixValue ≤ ipv4MaxPrefix || ip.prefixValue == InetPton4Status.valid.prefixStatus

def Ipv6.isValid (ip : Ipv6) : Bool :=
  ip.prefixValue ≤ ipv6MaxPrefix || ip.prefixValue == InetPton6Status.valid.prefixStatus

/-- Whether the number in the place of the prefix is that of a status. -/
def Ipv4.hasStatus (ip : Ipv4) (status : InetPton4Status) : Bool :=
  if ip.prefixValue ≤ ipv4MaxPrefix then status == .valid
  else ip.prefixValue == status.prefixStatus

/-- An address of either version. -/
inductive IpAddress where
  | v4 (ip : Ipv4)
  | v6 (ip : Ipv6)
  deriving DecidableEq

/-- `ip_address{str}`. -/
def IpAddress.ofText (bin : Vector UInt8 4) (str : List Char) : IpAddress :=
  let ip4 := Ipv4.ofText bin str
  if ip4.hasStatus .invalidCharacter then .v6 (Ipv6.ofText str) else .v4 ip4

def IpAddress.isValid : IpAddress → Bool
  | .v4 ip => ip.isValid
  | .v6 ip => ip.isValid

/-! ## Prefixes -/

theorem ofNat_le_of_le {p : Int} {n : UInt8} (hp : p ≤ n.toNat) : UInt8.ofNat p.toNat ≤ n := by
  have hn := n.toNat_lt
  rw [UInt8.le_iff_toNat_le, UInt8.toNat_ofNat', Nat.mod_eq_of_lt (by omega)]
  omega

theorem Ipv4.isValid_of_le {ip : Ipv4} (h : ip.prefixValue ≤ ipv4MaxPrefix) :
    ip.isValid = true := by simp [isValid, h]

theorem Ipv6.isValid_of_le {ip : Ipv6} (h : ip.prefixValue ≤ ipv6MaxPrefix) :
    ip.isValid = true := by simp [isValid, h]

theorem Ipv4.isValid_ofText (bin : Vector UInt8 4) (str : List Char) :
    (Ipv4.ofText bin str).isValid =
      (inetPton4Prefix str bin.toList InetPton4Status.valid.prefixStatus '/').1.isValid := by
  cases hst : (inetPton4Prefix str bin.toList InetPton4Status.valid.prefixStatus '/').1.isValid with
  | false =>
      simp only [ofText, hst]
      generalize (inetPton4Prefix str bin.toList
        InetPton4Status.valid.prefixStatus '/').1 = status at hst
      cases status <;> first | rfl | exact absurd hst (by decide)
  | true =>
      simp only [ofText, hst, if_true]
      unfold inetPton4Prefix at hst ⊢
      simp only at hst ⊢
      split_ifs at hst ⊢ with hspecial hprefix
      · simp [InetPton4Status.isValid] at hst
      · have hmax : ipv4MaxPrefix.toNat = 32 := rfl
        exact isValid_of_le (ofNat_le_of_le (by omega))
      · rfl

theorem Ipv6.isValid_ofText (str : List Char) :
    (Ipv6.ofText str).isValid =
      (inetPton6Prefix str (List.replicate 16 0)
        InetPton6Status.valid.prefixStatus '/').1.isValid := by
  cases hst : (inetPton6Prefix str (List.replicate 16 0)
      InetPton6Status.valid.prefixStatus '/').1.isValid with
  | false =>
      simp only [ofText, hst]
      generalize (inetPton6Prefix str (List.replicate 16 0)
        InetPton6Status.valid.prefixStatus '/').1 = status at hst
      cases status <;> first | rfl | exact absurd hst (by decide)
  | true =>
      simp only [ofText, hst, if_true]
      unfold inetPton6Prefix at hst ⊢
      simp only at hst ⊢
      split_ifs at hst ⊢ with hspecial hprefix
      · simp [InetPton6Status.isValid] at hst
      · have hmax : ipv6MaxPrefix.toNat = 128 := rfl
        exact isValid_of_le (ofNat_le_of_le (by omega))
      · rfl

theorem Ipv4.hasStatus_ofText (bin : Vector UInt8 4) (str : List Char)
    {status : InetPton4Status} (herror : status.isValid = false) :
    (Ipv4.ofText bin str).hasStatus status = true ↔
      (inetPton4Prefix str bin.toList InetPton4Status.valid.prefixStatus '/').1 = status := by
  cases hst : (inetPton4Prefix str bin.toList InetPton4Status.valid.prefixStatus '/').1.isValid with
  | false =>
      simp only [ofText, hst]
      generalize (inetPton4Prefix str bin.toList
        InetPton4Status.valid.prefixStatus '/').1 = st at hst
      have hmax : ¬ st.prefixStatus ≤ ipv4MaxPrefix := by cases st <;> decide
      simp only [hasStatus, hmax, if_false, Bool.false_eq_true, beq_iff_eq,
        InetPton4Status.prefixStatus_injective.eq_iff]
  | true =>
      have hvalid := isValid_ofText bin str
      rw [hst] at hvalid
      constructor
      · intro h
        rw [hasStatus] at h
        rw [isValid, Bool.or_eq_true, decide_eq_true_iff, beq_iff_eq] at hvalid
        split_ifs at h with hmax
        · rw [beq_iff_eq.mp h] at herror
          exact absurd herror (by decide)
        · rw [beq_iff_eq, hvalid.resolve_left hmax] at h
          have hsame := InetPton4Status.prefixStatus_injective h
          rw [← hsame] at herror
          exact absurd herror (by decide)
      · intro h
        rw [h, herror] at hst
        exact absurd hst (by decide)

/-! ## The first digits of an IPv6 text -/

/-- The decimal digits at the start of the text, if any, are a number up to 255
without leading zeros. -/
def StartsWithOctet (str : List Char) : Prop :=
  str.takeWhile isDigit = [] ∨ ∃ n ≤ 255, str.takeWhile isDigit = Nat.toDigits 10 n

/-- Decimal digits and then a character that is none of those `inet_pton4` looks
for. -/
def StopsPton4 (s : List Char) : Prop :=
  ∃ d c rest, s = d ++ c :: rest ∧ (∀ x ∈ d, isDigit x = true) ∧ isDigit c = false ∧
    c ≠ '.' ∧ c ≠ '/'

theorem IsGroup.stopsPton4 {g : List Char} (hg : IsGroup g) (u : List Char) :
    StopsPton4 (g ++ ':' :: u) := by
  have hsplit := @List.takeWhile_append_dropWhile _ isDigit g
  refine ⟨g.takeWhile isDigit, ?_⟩
  cases hdrop : g.dropWhile isDigit with
  | nil =>
      rw [hdrop, List.append_nil] at hsplit
      exact ⟨':', u, by rw [hsplit], fun x hx => List.mem_takeWhile_imp hx, by decide,
        by decide, by decide⟩
  | cons c rest =>
      rw [hdrop] at hsplit
      have hc : isDigit c = false := by
        have h := List.head?_dropWhile_not isDigit g
        rw [hdrop, List.head?_cons] at h
        simpa using h
      have hhex : isHexDigit c = true := hg.hex c (by rw [← hsplit]; simp)
      refine ⟨c, rest ++ ':' :: u, ?_, fun x hx => List.mem_takeWhile_imp hx, hc, ?_, ?_⟩
      · rw [← List.cons_append, ← List.append_assoc, hsplit]
      · rintro rfl
        exact absurd hhex (by decide)
      · rintro rfl
        exact absurd hhex (by decide)

theorem Address.stopsPton4 {e : Ending} {a : List Char} {bs : List UInt8}
    (h : Address e a bs) (u : List Char) : StopsPton4 (a ++ u) := by
  cases h with
  | full h hlen =>
      cases h with
      | group _ => rw [length_groupBytes] at hlen; omega
      | quad hq => omega
      | cons hg _ =>
          rw [List.append_assoc, List.cons_append]
          exact hg.stopsPton4 _
  | @gap e' e l r lb rb hl hquad hr _ =>
      rw [List.append_assoc, List.cons_append, List.cons_append]
      cases hl with
      | nil => exact ⟨[], ':', _, rfl, by simp, by decide, by decide, by decide⟩
      | groups hl =>
          cases hl with
          | group hg => exact hg.stopsPton4 _
          | quad _ => exact absurd rfl hquad
          | cons hg _ =>
              rw [List.append_assoc, List.cons_append]
              exact hg.stopsPton4 _

theorem takeWhile_digits {d : List Char} {c : Char} {rest : List Char}
    (hd : ∀ x ∈ d, isDigit x = true) (hc : isDigit c = false) :
    (d ++ c :: rest).takeWhile isDigit = d := by
  rw [List.takeWhile_append_of_pos hd, List.takeWhile_cons_of_neg (by simp [hc]),
    List.append_nil]

theorem StopsPton4.not_valid (h : StopsPton4 s)
    (hbytes : bytes.length = 4) : (inetPton4 s bytes 0 '/').status.isValid = false := by
  rw [← Bool.not_eq_true]
  intro hvalid
  obtain ⟨d, c, rest, hs, hd, hc, hdot, -⟩ := h
  obtain ⟨addr, rest', haddr, hs', -⟩ := inetPton4_accepts '/' s hbytes hvalid
  obtain ⟨o, tail, -, hquad⟩ := exists_dottedQuad haddr
  rw [inetNtop4_eq_dottedQuad haddr, hquad, List.append_assoc, List.cons_append] at hs'
  have hwhole : d ++ c :: rest = putOctet o ++ '.' :: (tail ++ rest') := by rw [← hs, hs']
  have htake := congrArg (List.takeWhile isDigit) hwhole
  rw [takeWhile_digits hd hc,
    takeWhile_digits (fun x hx => isDigit_of_mem_putOctet hx) (by decide)] at htake
  rw [htake, List.append_cancel_left_eq, List.cons.injEq] at hwhole
  exact hdot hwhole.1

theorem octet_of_scan {base done : List UInt8} (hdone : done.length ≤ 2) {d : List Char}
    (hd : ∀ x ∈ d, isDigit x = true) (src : List Char) (v : UInt8) (post : List UInt8)
    (saw : Bool) (hv : saw = false → v = 0)
    (h : (scan '/' base done v post saw (d ++ src)).status = .invalidCharacter) :
    (saw = false ∧ d = []) ∨ ∃ o, (if saw then putOctet v else []) ++ d = putOctet o := by
  induction d generalizing v saw with
  | nil =>
      cases saw with
      | false => exact Or.inl ⟨rfl, rfl⟩
      | true => exact Or.inr ⟨v, by simp⟩
  | cons x d ih =>
      have hx := hd x List.mem_cons_self
      rw [List.cons_append, scan_digit _ _ _ _ _ _ _ hx (by omega)] at h
      split_ifs at h with hzero hrange
      rcases ih (fun y hy => hd y (List.mem_cons_of_mem x hy)) _ true (by simp) h with
        h' | ⟨o, ho⟩
      · exact absurd h'.1 (by decide)
      · refine Or.inr ⟨o, ?_⟩
        rw [← ho, if_pos rfl]
        cases saw with
        | false =>
            rw [hv rfl]
            simp [putOctet_digit hx]
        | true =>
            have hv0 : v ≠ 0 := by simpa using hzero
            rw [if_pos rfl, putOctet_append_digit hx hv0 (by omega), List.append_assoc]
            rfl

theorem exists_putOctet_iff (d : List Char) :
    (∃ o, d = putOctet o) ↔ ∃ n ≤ 255, d = Nat.toDigits 10 n := by
  constructor
  · rintro ⟨o, rfl⟩
    have ho := o.toNat_lt
    exact ⟨o.toNat, by omega, putOctet_eq_toDigits o⟩
  · rintro ⟨n, hn, rfl⟩
    refine ⟨UInt8.ofNat n, ?_⟩
    rw [putOctet_eq_toDigits, UInt8.toNat_ofNat', Nat.mod_eq_of_lt (by omega)]

/-- `inet_pton4` reaches the character behind the digits when these are an octet. -/
theorem StopsPton4.invalidCharacter_iff (h : StopsPton4 s) (hbytes : bytes.length = 4) :
    (inetPton4 s bytes 0 '/').status = .invalidCharacter ↔ StartsWithOctet s := by
  obtain ⟨d, c, rest, rfl, hd, hc, hdot, -⟩ := h
  obtain ⟨x, y, z, w, rfl⟩ := exists_four hbytes
  have hscan : inetPton4 (d ++ c :: rest) [x, y, z, w] 0 '/' =
      scan '/' [] [] 0 [y, z, w] false (d ++ c :: rest) :=
    inetPton4_eq_scan '/' _ [] x [y, z, w]
  have hother : ∀ (v : UInt8) (saw : Bool),
      (scan '/' [] [] v [y, z, w] saw (c :: rest)).status = .invalidCharacter := by
    intro v saw
    have := Bool.toNat_le saw
    rw [scan_other _ _ _ _ _ _ _ hc (fun h => hdot h.1),
      if_neg (by rw [List.length_nil]; omega)]
  rw [StartsWithOctet, takeWhile_digits hd hc, ← exists_putOctet_iff, hscan]
  constructor
  · intro h
    rcases octet_of_scan (by simp) hd (c :: rest) 0 _ false (by simp) h with h' | ⟨o, ho⟩
    · exact Or.inl h'.2
    · exact Or.inr ⟨o, by simpa using ho⟩
  · rintro (rfl | ⟨o, rfl⟩)
    · exact hother 0 false
    · rw [scan_putOctet _ _ _ _ _ _ (by simp)]
      exact hother o true

/-! ## `ip_address` -/

/-- `ip_address{s}` is valid when `ipv4{s}` or `ipv6{s}` is, and then holds that
address. -/
structure HoldsAddress (bin : Vector UInt8 4) (s : List Char) : Prop where
  valid : (IpAddress.ofText bin s).isValid = true ↔
    (Ipv4.ofText bin s).isValid = true ∨ (Ipv6.ofText s).isValid = true
  v4 : (Ipv4.ofText bin s).isValid = true →
    IpAddress.ofText bin s = .v4 (Ipv4.ofText bin s)
  v6 : (Ipv6.ofText s).isValid = true → IpAddress.ofText bin s = .v6 (Ipv6.ofText s)

theorem stopsPton4_of_valid (h : (Ipv6.ofText s).isValid = true) :
    StopsPton4 s := by
  rw [Ipv6.isValid_ofText] at h
  have hvalid : (inetPton6 s (List.replicate 16 0) '/').status.isValid = true := by
    unfold inetPton6Prefix at h
    simp only at h
    split_ifs at h with hspecial hprefix
    · simp [InetPton6Status.isValid] at h
    · exact h
    · exact h
  obtain ⟨e, a, rest, rfl, ha, -⟩ :=
    address_of_inetPton6 not_isAddressChar_slash List.length_replicate hvalid
  exact ha.stopsPton4 rest

/-- On such a text the status with a prefix is the status without one. -/
theorem StopsPton4.prefix_eq (h : StopsPton4 s) (bin : Vector UInt8 4) (value : UInt8) :
    (inetPton4Prefix s bin.toList value '/').1 = (inetPton4 s bin.toList 0 '/').status := by
  have hinvalid := h.not_valid (show bin.toList.length = 4 by simp)
  unfold inetPton4Prefix
  simp only
  rw [if_neg]
  rintro ⟨hspecial, -⟩
  rw [hspecial] at hinvalid
  exact absurd hinvalid (by decide)

/-- `ip_address` holds the address of every text that is no IPv6 address, and of an
IPv6 address whose first decimal digits are an octet. -/
theorem ofText_holdsAddress_iff (bin : Vector UInt8 4) (s : List Char) :
    HoldsAddress bin s ↔ ((Ipv6.ofText s).isValid = true → StartsWithOctet s) := by
  have hbin : bin.toList.length = 4 := by simp
  have hstatus : (Ipv4.ofText bin s).hasStatus .invalidCharacter = true ↔
      (inetPton4Prefix s bin.toList InetPton4Status.valid.prefixStatus '/').1 =
        .invalidCharacter := Ipv4.hasStatus_ofText bin s rfl
  have hnot4 : (Ipv4.ofText bin s).hasStatus .invalidCharacter = true →
      (Ipv4.ofText bin s).isValid = false := by
    intro h
    rw [Ipv4.isValid_ofText, hstatus.mp h]
    rfl
  by_cases h6 : (Ipv6.ofText s).isValid = true
  · have hstops := stopsPton4_of_valid h6
    have hiff : (Ipv4.ofText bin s).hasStatus .invalidCharacter = true ↔ StartsWithOctet s := by
      rw [hstatus, hstops.prefix_eq, hstops.invalidCharacter_iff hbin]
    have h4 : (Ipv4.ofText bin s).isValid = false := by
      rw [Ipv4.isValid_ofText, hstops.prefix_eq, hstops.not_valid hbin]
    constructor
    · intro h _
      by_contra hno
      have hv4 : IpAddress.ofText bin s = .v4 (Ipv4.ofText bin s) :=
        if_neg fun hinv => hno (hiff.mp hinv)
      have hv6 := h.v6 h6
      rw [hv4] at hv6
      exact absurd hv6 (by simp)
    · intro h
      have hv6 : IpAddress.ofText bin s = .v6 (Ipv6.ofText s) := if_pos (hiff.mpr (h h6))
      refine ⟨?_, ?_, fun _ => hv6⟩
      · rw [hv6]
        exact iff_of_true h6 (Or.inr h6)
      · intro hv4
        rw [h4] at hv4
        exact absurd hv4 (by decide)
  · refine iff_of_true ⟨?_, ?_, fun h => absurd h h6⟩ (fun h => absurd h h6)
    · by_cases hinv : (Ipv4.ofText bin s).hasStatus .invalidCharacter = true
      · have hv6 : IpAddress.ofText bin s = .v6 (Ipv6.ofText s) := if_pos hinv
        rw [hv6, hnot4 hinv]
        simp [IpAddress.isValid]
      · have hv4 : IpAddress.ofText bin s = .v4 (Ipv4.ofText bin s) := if_neg hinv
        rw [hv4]
        simp [IpAddress.isValid, h6]
    · intro hv4
      refine if_neg fun hinv => ?_
      rw [hnot4 hinv] at hv4
      exact absurd hv4 (by decide)

/-- `2001:db8::1` is an IPv6 address that `ip_address` does not hold. -/
theorem ofText_not_holdsAddress :
    ¬ ∀ (bin : Vector UInt8 4) (s : List Char), HoldsAddress bin s := by
  intro h
  have hvalid := (h #v[0, 0, 0, 0] "2001:db8::1".toList).valid.mpr (Or.inr (by decide))
  exact absurd hvalid (by decide)

end Webpp.Ip

/-!
## The octets of an `ipv4`

An address is an integer, and its octets are the bytes of the integer, the most significant one
in front.
-/

namespace Webpp.Ip

open BigEndian

namespace Ipv4

/-- `octets` of the integer of an address -/
def octetsOf (data : UInt32) : List UInt8 :=
  [(data >>> 24).toUInt8, (data >>> 16 &&& 0xFF).toUInt8, (data >>> 8 &&& 0xFF).toUInt8,
    (data &&& 0xFF).toUInt8]

theorem length_octetsOf (data : UInt32) : (octetsOf data).length = 4 := rfl

theorem toBitVec_parseOctets (a b c d : UInt8) :
    (parseOctets [a, b, c, d]).toBitVec = place 32 [a, b, c, d] := by
  simp [parseOctets, place, BitVec.or_assoc]

theorem getMsbD_parseOctets {q : List UInt8} (h : q.length = 4) {i : ℕ} (hi : i < 32) :
    (parseOctets q).toBitVec.getMsbD i = bit q i := by
  obtain ⟨a, b, c, d, rfl⟩ := exists_four h
  rw [toBitVec_parseOctets]
  exact getMsbD_place_whole (show 8 * [a, b, c, d].length = 32 from rfl) hi

theorem octetsOf_eq_bytesOf (data : UInt32) : octetsOf data = bytesOf 4 data.toBitVec := by
  simp [octetsOf, bytesOf, List.range_succ, ← UInt8.toBitVec_inj, and_byteOnes]

theorem bit_octetsOf (data : UInt32) {i : ℕ} (hi : i < 32) :
    bit (octetsOf data) i = data.toBitVec.getMsbD i := by
  rw [octetsOf_eq_bytesOf]
  exact bit_bytesOf data.toBitVec rfl hi

theorem parseOctets_octetsOf (data : UInt32) : parseOctets (octetsOf data) = data := by
  refine UInt32.toBitVec_inj.mp (BitVec.eq_of_getMsbD_eq fun i hi => ?_)
  rw [getMsbD_parseOctets (length_octetsOf data) hi, bit_octetsOf data hi]

end Ipv4

end Webpp.Ip
