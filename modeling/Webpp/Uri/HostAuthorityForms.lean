import Webpp.Ip.IpAddress
import Webpp.Text.CharConv
import Webpp.Uri.Domain

/-!
# The forms of a host authority

A domain name, an IPv4 address or a bracketed IPv6 address, each alone or with a port.
`host_authority` reads all of them but a domain name with a port, and it accepts texts of
no form: what it finds in brackets need not be an address, the port is read up to the
first character that is no digit, and the domain may be missing (`contract_iff`).
-/

/-!
## `host_authority`

A host, or a host and a port, as in the `Host` header. A text that starts with a bracket
is taken as an IPv6 address up to the last closing bracket; a text that starts with a
digit is tried as an IPv4 address first; everything else is a domain name. What stands
behind the host goes to `parse_port`.
-/

namespace Webpp.Uri

open Ip Text

variable {q : List UInt8} {p : List Char} {c : Char}

inductive HostStatus where
  | valid | validWithPort | invalidHost | invalidPort | invalidPortRange | invalidIpv6
  deriving DecidableEq

/-- `endpoint_variant_type` -/
inductive Endpoint where
  | monostate
  | ipv4 (ip : Ipv4)
  | ipv6 (ip : Ipv6)
  | domain (domain : Domain)
  deriving DecidableEq

structure HostAuthority where
  endpoint : Endpoint
  portValue : UInt16
  status : HostStatus
  deriving DecidableEq

namespace HostAuthority

def maxPortNumber : ℕ := 65535

/-- The members before the constructor's body. -/
def start : HostAuthority := ⟨.monostate, 0, .invalidHost⟩

def parsePort (h : HostAuthority) : List Char → HostAuthority
  | [] => h
  | c :: port =>
      if c ≠ ':' then { h with status := .invalidHost }
      else
        match fromChars port with
        | .invalidArgument => { h with status := .invalidPort }
        | .outOfRange => { h with status := .invalidPort }
        | .value v =>
            if v < 0 ∨ (maxPortNumber : Int) < v then { h with status := .invalidPort }
            else { h with portValue := UInt16.ofNat v.toNat, status := .validWithPort }

/-- `parse_domain`. `parse_domain_name` moves a copy of the pointer, so the pointer is still at
the first character when it is compared with `':'`, and the domain before it is empty. -/
def parseDomain (h : HostAuthority) (host : List Char) : HostAuthority :=
  match parseDomainName host with
  | .valid => { h with endpoint := .domain (Domain.ofText host), status := .valid }
  | .validPunycode => { h with endpoint := .domain (Domain.ofText host), status := .valid }
  | .invalidCharacter =>
      if host.head? = some ':' then
        parsePort { h with endpoint := .domain (Domain.ofText []) } host
      else { h with status := .invalidHost }
  | _ => { h with status := .invalidHost }

/-- The text in front of the last closing bracket, and behind it. -/
def splitBracket (text : List Char) : Option (List Char × List Char) :=
  if ']' ∈ text then
    some ((text.reverse.dropWhile (· ≠ ']')).tail.reverse,
      (text.reverse.takeWhile (· ≠ ']')).reverse)
  else none

/-- The value of an `ipv4` that is built from octets. -/
def ipv4OfOctets (octets : List UInt8) : Ipv4 :=
  ⟨Ipv4.parseOctets octets, InetPton4Status.valid.prefixStatus⟩

/-- `host_authority{hostname}`; `bin` is what the uninitialised octets contain. -/
def ofText (bin : Vector UInt8 4) : List Char → HostAuthority
  | [] => start
  | '[' :: text =>
      match splitBracket text with
      | some (ipAddr, port) =>
          parsePort { start with endpoint := .ipv6 (Ipv6.ofText ipAddr), status := .valid } port
      | none => { start with status := .invalidIpv6 }
  | c :: text =>
      if isDigit c then
        let r := inetPton4 (c :: text) bin.toList 0 ':'
        match r.status with
        | .valid => { start with endpoint := .ipv4 (ipv4OfOctets r.bytes), status := .valid }
        | .validSpecial =>
            if r.src.head? = some ':' then
              parsePort { start with endpoint := .ipv4 (ipv4OfOctets r.bytes) } r.src
            else parseDomain start (c :: text)
        | _ => parseDomain start (c :: text)
      else parseDomain start (c :: text)

def hasPort (h : HostAuthority) : Bool := h.status == .validWithPort

def isValid (h : HostAuthority) : Bool := h.status == .valid || h.status == .validWithPort

end HostAuthority

end Webpp.Uri

namespace Webpp.Uri

open Ip Text

namespace HostAuthority

/-- A decimal port. -/
structure PortText (p : List Char) (v : ℕ) : Prop where
  ne_nil : p ≠ []
  digits : ∀ c ∈ p, isDigit c = true
  value : numeralValue p = v
  le : v ≤ maxPortNumber

/-- The text of an IPv4 address. -/
def IsIpv4 (t : List Char) : Prop := ∃ q : List UInt8, q.length = 4 ∧ t = dottedQuad q

/-- A valid domain name that is no IPv4 address. -/
structure DomainText (d : List Char) : Prop where
  valid : (Domain.ofText d).isValid = true
  not_ipv4 : ¬IsIpv4 d

/-- The value of an `ipv6` without a prefix. -/
def ipv6OfBytes (bytes : List UInt8) : Ipv6 := ⟨bytes, InetPton6Status.valid.prefixStatus⟩

/-- The forms of a text, with the host and the port they stand for. -/
inductive HostForm (t : List Char) : Endpoint → Option ℕ → Prop where
  | domain (hd : DomainText t) : HostForm t (.domain (Domain.ofText t)) none
  | domainPort {d p : List Char} {v : ℕ} (ht : t = d ++ ':' :: p) (hd : DomainText d)
      (hp : PortText p v) : HostForm t (.domain (Domain.ofText d)) (some v)
  | ipv4 {q : List UInt8} (hq : q.length = 4) (ht : t = dottedQuad q) :
      HostForm t (.ipv4 (ipv4OfOctets q)) none
  | ipv4Port {q : List UInt8} {p : List Char} {v : ℕ} (hq : q.length = 4)
      (ht : t = dottedQuad q ++ ':' :: p) (hp : PortText p v) :
      HostForm t (.ipv4 (ipv4OfOctets q)) (some v)
  | ipv6 {e : Ending} {a : List Char} {bs : List UInt8} (ha : Address e a bs)
      (ht : t = '[' :: (a ++ [']'])) : HostForm t (.ipv6 (ipv6OfBytes bs)) none
  | ipv6Port {e : Ending} {a p : List Char} {bs : List UInt8} {v : ℕ} (ha : Address e a bs)
      (ht : t = '[' :: (a ++ ']' :: ':' :: p)) (hp : PortText p v) :
      HostForm t (.ipv6 (ipv6OfBytes bs)) (some v)

/-- The authority is valid, with this host and this port. -/
structure Reports (h : HostAuthority) (e : Endpoint) (port : Option ℕ) : Prop where
  valid : h.isValid = true
  endpoint_eq : h.endpoint = e
  hasPort_eq : h.hasPort = port.isSome
  port_eq : ∀ v, port = some v → h.portValue.toNat = v

/-- What is said of a text: its forms are reported, and what has no form is not valid. -/
def Contract (t : List Char) (h : HostAuthority) : Prop :=
  (∀ e port, HostForm t e port → h.Reports e port) ∧
    ((∀ e port, ¬HostForm t e port) → h.isValid = false)

/-- The texts that are not read as they should be. -/
inductive Misread (t : List Char) : Prop where
  /-- A domain name with a port. -/
  | domainPort {d p : List Char} {v : ℕ} (ht : t = d ++ ':' :: p) (hd : DomainText d)
      (hp : PortText p v)
  /-- A port without a host. -/
  | noHost {p : List Char} {v : ℕ} (ht : t = ':' :: p) (hlen : t.length ≤ domainNameThreshold)
      (hp : ReadsNumber maxPortNumber p v)
  /-- Brackets with no IPv6 address in them, or with more than a port behind them. -/
  | bracket {x r : List Char} (ht : t = '[' :: (x ++ ']' :: r)) (hr : ']' ∉ r)
      (hport : r = [] ∨ ∃ p v, r = ':' :: p ∧ ReadsNumber maxPortNumber p v)
      (hbad : ¬((∃ e bs, Address e x bs) ∧ (r = [] ∨ ∃ p v, r = ':' :: p ∧ PortText p v)))
  /-- An IPv4 address with a port and more behind it. -/
  | ipv4Junk {q : List UInt8} {p : List Char} {v : ℕ} (hq : q.length = 4)
      (ht : t = dottedQuad q ++ ':' :: p) (hp : ReadsNumber maxPortNumber p v)
      (hbad : ∀ v, ¬PortText p v)

/-! ## Ports -/

theorem PortText.readsNumber {v : ℕ} (h : PortText p v) :
    ReadsNumber maxPortNumber p v :=
  ⟨h.le, p, [], h.value, .inl ⟨(List.append_nil p).symm, h.ne_nil, h.digits, by simp⟩⟩

theorem maxPortNumber_le : maxPortNumber ≤ 2147483647 := by decide

theorem parsePort_of_reads (h : HostAuthority) {v : ℕ} (hp : ReadsNumber maxPortNumber p v) :
    h.parsePort (':' :: p) =
      { h with portValue := UInt16.ofNat v, status := .validWithPort } := by
  obtain ⟨hvalue, hle⟩ := (fromChars_iff maxPortNumber_le p v).2 hp
  have hfits : ¬((v : Int) < 0 ∨ (maxPortNumber : Int) < v) := by omega
  rw [parsePort, if_neg (not_not.2 rfl), hvalue]
  exact if_neg hfits

theorem toNat_port {v : ℕ} (h : v ≤ maxPortNumber) : (UInt16.ofNat v).toNat = v := by
  rw [UInt16.toNat_ofNat']
  exact Nat.mod_eq_of_lt (Nat.lt_succ_of_le h)

theorem reads_of_parsePort {h : HostAuthority} (hvalid : (h.parsePort (c :: p)).isValid = true) :
    c = ':' ∧ ∃ v, ReadsNumber maxPortNumber p v := by
  rw [parsePort] at hvalid
  split at hvalid
  · exact absurd hvalid (by simp [isValid])
  · rename_i hc
    refine ⟨not_not.1 hc, ?_⟩
    split at hvalid
    · exact absurd hvalid (by simp [isValid])
    · exact absurd hvalid (by simp [isValid])
    · rename_i v hv
      split at hvalid
      · exact absurd hvalid (by simp [isValid])
      · rename_i hrange
        rw [not_or, Int.not_lt, Int.not_lt] at hrange
        refine ⟨v.toNat, (fromChars_iff maxPortNumber_le p v.toNat).1 ⟨?_, by omega⟩⟩
        rw [hv, Int.toNat_of_nonneg hrange.1]

theorem reports_parsePort (h : HostAuthority) {v : ℕ} (hp : PortText p v) :
    (h.parsePort (':' :: p)).Reports h.endpoint (some v) := by
  rw [parsePort_of_reads h hp.readsNumber]
  refine ⟨rfl, rfl, rfl, fun w hw => ?_⟩
  obtain rfl := Option.some.inj hw
  exact toNat_port hp.le

/-! ## Brackets -/

theorem splitBracket_append (x : List Char) {r : List Char} (hr : ']' ∉ r) :
    splitBracket (x ++ ']' :: r) = some (x, r) := by
  have hrev : (x ++ ']' :: r).reverse = r.reverse ++ ']' :: x.reverse := by simp
  have hall : ∀ c ∈ r.reverse, (decide (c ≠ ']')) = true := by
    intro c hc
    have hne : c ≠ ']' := fun h => hr (h ▸ List.mem_reverse.1 hc)
    simpa using hne
  rw [splitBracket, if_pos (by simp), hrev, List.dropWhile_append_of_pos hall,
    List.takeWhile_append_of_pos hall]
  simp

theorem exists_of_splitBracket {text x r : List Char} (h : splitBracket text = some (x, r)) :
    text = x ++ ']' :: r ∧ ']' ∉ r := by
  have hmem : ']' ∈ text := by
    by_contra hno
    rw [splitBracket, if_neg hno] at h
    cases h
  obtain ⟨s, u, htext, hs⟩ := List.eq_append_cons_of_mem (List.mem_reverse.2 hmem)
  have hlast : text = u.reverse ++ ']' :: s.reverse := by
    rw [← List.reverse_reverse text, htext]
    simp
  have hnot : ']' ∉ s.reverse := fun h => hs (List.mem_reverse.1 h)
  rw [hlast, splitBracket_append _ hnot] at h
  cases h
  exact ⟨hlast, hnot⟩

/-! ## IPv4 addresses -/

theorem mem_dottedQuad (hq : q.length = 4) (h : c ∈ dottedQuad q) :
    isDigit c = true ∨ c = '.' := by
  obtain ⟨a, b, c', d, rfl⟩ := exists_four hq
  rw [← inetNtop4_eq_dottedQuad hq] at h
  simp only [inetNtop4, List.getD_cons_zero, List.getD_cons_succ, List.mem_append,
    List.mem_cons] at h
  rcases h with h | h | h | h | h | h | h
  all_goals first | exact .inl (isDigit_of_mem_putOctet h) | exact .inr h

theorem not_mem_dottedQuad (hq : q.length = 4)
    (hdigit : isDigit c = false) (hdot : c ≠ '.') : c ∉ dottedQuad q := by
  intro h
  rcases mem_dottedQuad hq h with h | h
  · rw [hdigit] at h
    cases h
  · exact hdot h

theorem exists_dottedQuad_cons (hq : q.length = 4) :
    ∃ c s, dottedQuad q = c :: s ∧ isDigit c = true := by
  have hcons : dottedQuad q = putOctet (q.getD 0 0) ++ '.' :: (dottedQuad q).drop
      ((putOctet (q.getD 0 0)).length + 1) := by
    rw [← inetNtop4_eq_dottedQuad hq, inetNtop4]
    simp
  cases hp : putOctet (q.getD 0 0) with
  | nil => exact absurd hp (putOctet_ne_nil _)
  | cons c s =>
      rw [hp] at hcons
      exact ⟨c, _, hcons, isDigit_of_mem_putOctet (hp ▸ List.mem_cons_self)⟩

theorem inetPton4_dottedQuad (bin : Vector UInt8 4) (hq : q.length = 4) :
    inetPton4 (dottedQuad q) bin.toList 0 ':' = ⟨.valid, [], q⟩ := by
  have h := inetPton4_inetNtop4 ':' [] hq bin.length_toList []
  rw [inetNtop4_eq_dottedQuad hq] at h
  simpa using h

theorem inetPton4_dottedQuad_port (bin : Vector UInt8 4) (hq : q.length = 4) (p : List Char) :
    inetPton4 (dottedQuad q ++ ':' :: p) bin.toList 0 ':' = ⟨.validSpecial, ':' :: p, q⟩ := by
  have h := inetPton4_inetNtop4_append ':' [] hq bin.length_toList [] (c := ':')
    (by decide) (by decide) p
  rw [inetNtop4_eq_dottedQuad hq] at h
  simpa using h

/-- What `inet_pton4` accepts is an address, or an address and a colon. -/
theorem dottedQuad_of_inetPton4 (bin : Vector UInt8 4) {t : List Char}
    (h : (inetPton4 t bin.toList 0 ':').status.isValid = true) :
    ∃ q, q.length = 4 ∧ (t = dottedQuad q ∨ ∃ p, t = dottedQuad q ++ ':' :: p) := by
  have hread := inetPton4_valid ':' t [] bin.length_toList [] (by simpa using h)
  obtain ⟨q, rest, hq, ht, hends⟩ := hread
  rw [inetNtop4_eq_dottedQuad hq] at ht
  refine ⟨q, hq, ?_⟩
  generalize inetPton4 t ([] ++ bin.toList ++ []) [].length ':' = r at hends
  cases hends with
  | finish => exact .inl (by simpa using ht)
  | special src => exact .inr ⟨src, ht⟩

/-! ## The forms are reported -/

variable {bin : Vector UInt8 4}

theorem ofText_ipv4 (hq : q.length = 4) :
    ofText bin (dottedQuad q) =
      { start with endpoint := .ipv4 (ipv4OfOctets q), status := .valid } := by
  obtain ⟨c, s, hcons, hc⟩ := exists_dottedQuad_cons hq
  have hbracket : c ≠ '[' := fun h => absurd hc (by rw [h]; decide)
  have hread := inetPton4_dottedQuad bin hq
  rw [hcons] at hread ⊢
  rw [ofText]
  · rw [if_pos hc, hread]
  · exact hbracket

theorem ofText_ipv4_port (hq : q.length = 4) (p : List Char) :
    ofText bin (dottedQuad q ++ ':' :: p) =
      parsePort { start with endpoint := .ipv4 (ipv4OfOctets q) } (':' :: p) := by
  obtain ⟨c, s, hcons, hc⟩ := exists_dottedQuad_cons hq
  have hbracket : c ≠ '[' := fun h => absurd hc (by rw [h]; decide)
  have hread := inetPton4_dottedQuad_port bin hq p
  rw [hcons, List.cons_append] at hread ⊢
  rw [ofText]
  · rw [if_pos hc, hread]
    rfl
  · exact hbracket

theorem ofText_bracket {x r : List Char} (hr : ']' ∉ r) :
    ofText bin ('[' :: (x ++ ']' :: r)) =
      parsePort { start with endpoint := .ipv6 (Ipv6.ofText x), status := .valid } r := by
  rw [ofText, splitBracket_append x hr]

theorem ofText_domain {s : List Char} (hc : c ≠ '[') (hno : ∀ q : List UInt8, q.length = 4 →
      c :: s ≠ dottedQuad q ∧ ∀ p, c :: s ≠ dottedQuad q ++ ':' :: p) :
    ofText bin (c :: s) = parseDomain start (c :: s) := by
  rw [ofText]
  · split
    · have hinvalid : ¬(inetPton4 (c :: s) bin.toList 0 ':').status.isValid = true := by
        intro h
        obtain ⟨q, hq, ht | ⟨p, ht⟩⟩ := dottedQuad_of_inetPton4 bin h
        · exact (hno q hq).1 ht
        · exact (hno q hq).2 p ht
      dsimp only
      split
      · rename_i hst
        exact absurd (by rw [hst]; rfl) hinvalid
      · rename_i hst
        exact absurd (by rw [hst]; rfl) hinvalid
      · rfl
    · rfl
  · exact hc

theorem ipv6_ofText {e : Ending} {a : List Char} {bs : List UInt8} (ha : Address e a bs) :
    Ipv6.ofText a = ipv6OfBytes bs := by
  have hslash : ¬IsAddressChar '/' := by
    rintro (h | h | h) <;> exact absurd h (by decide)
  have hread := inetPton6_of_address hslash ha (List.length_replicate (n := 16) (a := 0))
    (.finish e)
  rw [List.append_nil] at hread
  rw [Ipv6.ofText, inetPton6Prefix, hread]
  rfl

end HostAuthority

end Webpp.Uri
