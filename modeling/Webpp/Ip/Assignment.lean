import Webpp.Ip.IpAddress
import Webpp.Text.CharConv

/-!
# Texts that are assigned

`parse` leaves the address of a text with its prefix, or the status of its error. The assignment
of a text calls it, and sets the prefix to the status `valid` then: the prefix is lost, and so is
the error, while the octets are the old ones, or the ones an IPv6 text has up to its error.
-/

namespace Webpp.Ip

open Webpp.Text

variable {str : List Char}

/-! ## What a text denotes -/

/-- The text is an IPv4 address, with or without a prefix. -/
inductive Ipv4.Denotes : List Char → Ipv4 → Prop where
  | plain {q : List UInt8} : q.length = 4 →
      Denotes (dottedQuad q) ⟨parseOctets q, InetPton4Status.valid.prefixStatus⟩
  | withPrefix {q : List UInt8} {p : UInt8} : q.length = 4 → p ≤ ipv4MaxPrefix →
      Denotes (dottedQuad q ++ '/' :: Nat.toDigits 10 p.toNat) ⟨parseOctets q, p⟩

/-- The text is an IPv6 address, with or without a prefix. -/
inductive Ipv6.Denotes : List Char → Ipv6 → Prop where
  | plain {e : Ending} {t : List Char} {bs : List UInt8} : Address e t bs →
      Denotes t ⟨bs, InetPton6Status.valid.prefixStatus⟩
  | withPrefix {e : Ending} {t : List Char} {bs : List UInt8} {p : UInt8} : Address e t bs →
      p ≤ ipv6MaxPrefix → Denotes (t ++ '/' :: Nat.toDigits 10 p.toNat) ⟨bs, p⟩

/-- A number the parser of prefixes finds is written without zeros in front. -/
theorem toDigits_of_parsePrefix {src : List Char} (h : parsePrefix src ≠ -1) :
    ∃ n : ℕ, parsePrefix src = n ∧ src = Nat.toDigits 10 n := by
  cases src with
  | nil => exact absurd rfl h
  | cons c₁ src =>
    by_cases h₁ : isDigit c₁ = true
    · have hone := toDigits_digitValue h₁
      cases src with
      | nil => exact ⟨digitValue c₁, by simp [parsePrefix, h₁], hone.symm⟩
      | cons c₂ src =>
        by_cases h₂ : isDigit c₂ = true
        · by_cases hzero : digitValue c₁ = 0
          · simp [parsePrefix, h₁, h₂, hzero] at h
          · have hpos := Nat.pos_of_ne_zero hzero
            cases src with
            | nil =>
              have htwo := toDigits_numeralFrom hpos
                (show ∀ c ∈ [c₂], isDigit c = true by simpa using h₂)
              exact ⟨digitValue c₁ * 10 + digitValue c₂, by simp [parsePrefix, h₁, h₂, hzero],
                by rw [show [c₁, c₂] = [c₁] ++ [c₂] from rfl, ← hone, ← htwo]; rfl⟩
            | cons c₃ src =>
              by_cases h₃ : isDigit c₃ = true
              · cases src with
                | nil =>
                  have hthree := toDigits_numeralFrom hpos
                    (show ∀ c ∈ [c₂, c₃], isDigit c = true by simp [h₂, h₃])
                  exact ⟨(digitValue c₁ * 10 + digitValue c₂) * 10 + digitValue c₃,
                    by simp [parsePrefix, h₁, h₂, h₃, hzero],
                    by rw [show [c₁, c₂, c₃] = [c₁] ++ [c₂, c₃] from rfl, ← hone, ← hthree]; rfl⟩
                | cons c₄ src => simp [parsePrefix, h₁, h₂, h₃, hzero] at h
              · simp [parsePrefix, h₁, h₂, h₃, hzero] at h
        · simp [parsePrefix, h₁, h₂] at h
    · simp [parsePrefix, h₁] at h

/-! ## `ipv4` -/

namespace Ipv4

/-- `parse`; `bin` is what the uninitialised array of octets contains. -/
def parse (ip : Ipv4) (bin : Vector UInt8 4) (str : List Char) : Ipv4 :=
  let r := inetPton4Prefix str bin.toList InetPton4Status.valid.prefixStatus '/'
  if r.1.isValid then ⟨parseOctets r.2.1, r.2.2⟩ else ⟨ip.data, r.1.prefixStatus⟩

/-- `operator=` with a text -/
def assign (ip : Ipv4) (bin : Vector UInt8 4) (str : List Char) : Ipv4 :=
  { ip.parse bin str with prefixValue := InetPton4Status.valid.prefixStatus }

/-- The object has the address and the prefix of the text; or the text is none, and the object has
the status of its parse. -/
def AssignsText (ip : Ipv4) (bin : Vector UInt8 4) (str : List Char) : Prop :=
  (∃ value, Denotes str value ∧ ip.assign bin str = value ∧
      (ip.assign bin str).isValid = true) ∨
    (¬ ∃ value, Denotes str value) ∧ (ip.assign bin str).isValid = false ∧
      (ip.assign bin str).hasStatus
        (inetPton4Prefix str bin.toList InetPton4Status.valid.prefixStatus '/').1 = true

theorem ofText_eq_parse (bin : Vector UInt8 4) (str : List Char) :
    ofText bin str = (Ipv4.mk 0 InetPton4Status.valid.prefixStatus).parse bin str := rfl

/-- An assigned object reports that it is valid, whatever the text is. -/
theorem isValid_assign (ip : Ipv4) (bin : Vector UInt8 4) (str : List Char) :
    (ip.assign bin str).isValid = true := by
  rw [isValid, assign, beq_self_eq_true, Bool.or_true]

theorem parse_dottedQuad (ip : Ipv4) (bin : Vector UInt8 4) {q : List UInt8} (h : q.length = 4) :
    ip.parse bin (dottedQuad q) = ⟨parseOctets q, InetPton4Status.valid.prefixStatus⟩ := by
  have hread := inetPton4_inetNtop4_whole '/' h (show bin.toList.length = 4 by simp)
  rw [← inetNtop4_eq_dottedQuad h, parse, inetPton4Prefix, hread]
  rfl

theorem denotes_of_isValid {bin : Vector UInt8 4}
    (h : (ofText bin str).isValid = true) : Denotes str (ofText bin str) := by
  rw [isValid_ofText] at h
  have hbin : bin.toList.length = 4 := by simp
  have hvalid : (inetPton4 str bin.toList 0 '/').status.isValid = true := by
    unfold inetPton4Prefix at h
    simp only at h
    split_ifs at h with hspecial hpre
    · simp [InetPton4Status.isValid] at h
    · exact h
    · exact h
  obtain ⟨q, rest, hq, rfl, hends⟩ := inetPton4_accepts '/' str hbin hvalid
  rw [inetNtop4_eq_dottedQuad hq] at hends h ⊢
  generalize hr : inetPton4 (dottedQuad q ++ rest) bin.toList 0 '/' = r at hends
  cases hends with
  | finish =>
    have hparse : ofText bin (dottedQuad q ++ []) =
        ⟨parseOctets q, InetPton4Status.valid.prefixStatus⟩ := by
      rw [ofText, inetPton4Prefix, hr]
      rfl
    rw [hparse, List.append_nil]
    exact .plain hq
  | special src =>
    have hread : inetPton4Prefix (dottedQuad q ++ '/' :: src) bin.toList
        InetPton4Status.valid.prefixStatus '/' =
          if parsePrefix src = -1 ∨ parsePrefix src > 32 then
            (.invalidPrefix, q, InetPton4Status.valid.prefixStatus)
          else (.validSpecial, q, UInt8.ofNat (parsePrefix src).toNat) := by
      rw [inetPton4Prefix, hr]
      simp
    by_cases hpre : parsePrefix src = -1 ∨ parsePrefix src > 32
    · rw [hread, if_pos hpre] at h
      exact absurd h Bool.false_ne_true
    · rw [if_neg hpre] at hread
      obtain ⟨n, hn, rfl⟩ := toDigits_of_parsePrefix (fun hnone => hpre (Or.inl hnone))
      have hle : n ≤ 32 := by omega
      have hparse : ofText bin (dottedQuad q ++ '/' :: Nat.toDigits 10 n) =
          ⟨parseOctets q, UInt8.ofNat n⟩ := by
        rw [ofText, hread, hn, Int.toNat_natCast]
        rfl
      have htoNat : (UInt8.ofNat n).toNat = n := by
        rw [UInt8.toNat_ofNat', Nat.mod_eq_of_lt (by omega)]
      rw [hparse]
      have hdenotes := Denotes.withPrefix hq (show UInt8.ofNat n ≤ ipv4MaxPrefix from
        UInt8.le_iff_toNat_le.mpr (by rw [htoNat]; exact hle))
      rwa [htoNat] at hdenotes

theorem Denotes.eq_plain {value : Ipv4} (h : Denotes str value)
    (hpre : value.prefixValue = InetPton4Status.valid.prefixStatus) :
    ∃ q, q.length = 4 ∧ str = dottedQuad q := by
  cases h with
  | plain hq => exact ⟨_, hq, rfl⟩
  | @withPrefix _ p _ hp =>
    obtain rfl : p = InetPton4Status.valid.prefixStatus := hpre
    exact absurd hp (by decide)

/-- The assignment is right for addresses without a prefix. -/
theorem assignsText_iff (ip : Ipv4) (bin : Vector UInt8 4) (str : List Char) :
    ip.AssignsText bin str ↔ ∃ q : List UInt8, q.length = 4 ∧ str = dottedQuad q := by
  constructor
  · rintro (⟨value, hdenotes, hvalue, -⟩ | ⟨-, hinvalid, -⟩)
    · exact hdenotes.eq_plain (by rw [← hvalue]; rfl)
    · rw [isValid_assign] at hinvalid
      exact absurd hinvalid (by decide)
  · rintro ⟨q, hq, rfl⟩
    refine Or.inl ⟨_, .plain hq, ?_, isValid_assign ip bin _⟩
    rw [assign, parse_dottedQuad ip bin hq]

end Ipv4

/-! ## `ipv6` -/

namespace Ipv6

/-- `parse`: the octets are written in place. -/
def parse (ip : Ipv6) (str : List Char) : Ipv6 :=
  let r := inetPton6Prefix str ip.data InetPton6Status.valid.prefixStatus '/'
  if r.1.isValid then ⟨r.2.1, r.2.2⟩ else ⟨r.2.1, r.1.prefixStatus⟩

/-- `operator=` with a text -/
def assign (ip : Ipv6) (str : List Char) : Ipv6 :=
  { ip.parse str with prefixValue := InetPton6Status.valid.prefixStatus }

/-- Whether the number in the place of the prefix is that of a status. -/
def hasStatus (ip : Ipv6) (status : InetPton6Status) : Bool :=
  if ip.prefixValue ≤ ipv6MaxPrefix then status == .valid
  else ip.prefixValue == status.prefixStatus

/-- The object has the address and the prefix of the text; or the text is none, and the object has
the status of its parse. -/
def AssignsText (ip : Ipv6) (str : List Char) : Prop :=
  (∃ value, Denotes str value ∧ ip.assign str = value ∧ (ip.assign str).isValid = true) ∨
    (¬ ∃ value, Denotes str value) ∧ (ip.assign str).isValid = false ∧
      (ip.assign str).hasStatus
        (inetPton6Prefix str ip.data InetPton6Status.valid.prefixStatus '/').1 = true

theorem ofText_eq_parse (str : List Char) :
    ofText str =
      (Ipv6.mk (List.replicate 16 0) InetPton6Status.valid.prefixStatus).parse str := rfl

theorem isValid_assign (ip : Ipv6) (str : List Char) : (ip.assign str).isValid = true := by
  rw [isValid, assign, beq_self_eq_true, Bool.or_true]

theorem parse_address {ip : Ipv6} (hdata : ip.data.length = 16) {e : Ending}
    {bs : List UInt8} (h : Address e str bs) :
    ip.parse str = ⟨bs, InetPton6Status.valid.prefixStatus⟩ := by
  have hread := inetPton6_of_address not_isAddressChar_slash h hdata (.finish e)
  rw [List.append_nil] at hread
  rw [parse, inetPton6Prefix, hread]
  rfl

theorem Denotes.eq_plain {value : Ipv6} (h : Denotes str value)
    (hpre : value.prefixValue = InetPton6Status.valid.prefixStatus) :
    ∃ e bs, Address e str bs := by
  cases h with
  | plain h => exact ⟨_, _, h⟩
  | @withPrefix _ _ _ p _ hp =>
    obtain rfl : p = InetPton6Status.valid.prefixStatus := hpre
    exact absurd hp (by decide)

/-- The assignment is right for addresses without a prefix. -/
theorem assignsText_iff {ip : Ipv6} (hdata : ip.data.length = 16) (str : List Char) :
    ip.AssignsText str ↔ ∃ e bs, Address e str bs := by
  constructor
  · rintro (⟨value, hdenotes, hvalue, -⟩ | ⟨-, hinvalid, -⟩)
    · exact hdenotes.eq_plain (by rw [← hvalue]; rfl)
    · rw [isValid_assign] at hinvalid
      exact absurd hinvalid (by decide)
  · rintro ⟨e, bs, haddr⟩
    refine Or.inl ⟨_, .plain haddr, ?_, isValid_assign ip str⟩
    rw [assign, parse_address hdata haddr]

end Ipv6

/-! ## Both of them -/

/-- A text is assigned rightly to an object of each kind, if and only if it is an address of the
kind that has no prefix. -/
theorem assign_right_iff (ip4 : Ipv4) (bin : Vector UInt8 4) {ip6 : Ipv6}
    (hdata : ip6.data.length = 16) (str : List Char) :
    (ip4.AssignsText bin str ↔ ∃ q : List UInt8, q.length = 4 ∧ str = dottedQuad q) ∧
      (ip6.AssignsText str ↔ ∃ e bs, Address e str bs) :=
  ⟨ip4.assignsText_iff bin str, Ipv6.assignsText_iff hdata str⟩

theorem assign_right_zero :
    (Ipv6.mk (List.replicate 16 0) 255).data.length = 16 ∧
      ((Ipv4.mk 0 255).AssignsText #v[0, 0, 0, 0] "1.2.3.4".toList ↔
        ∃ q : List UInt8, q.length = 4 ∧ "1.2.3.4".toList = dottedQuad q) ∧
      ((Ipv6.mk (List.replicate 16 0) 255).AssignsText "1.2.3.4".toList ↔
        ∃ e bs, Address e "1.2.3.4".toList bs) :=
  ⟨rfl, assign_right_iff ⟨0, 255⟩ #v[0, 0, 0, 0] rfl "1.2.3.4".toList⟩

/-- After a text that is no address, the object is valid: it has the old address, or octets of
the text in front of the old ones. -/
theorem assign_wrong :
    ¬ (Ipv4.mk 0x01020304 255).AssignsText #v[0, 0, 0, 0] "x".toList ∧
      ¬ (Ipv6.mk (List.replicate 16 7) 255).AssignsText "2001:db8:x".toList ∧
      (Ipv4.mk 0x01020304 255).assign #v[0, 0, 0, 0] "x".toList = ⟨0x01020304, 255⟩ ∧
      (Ipv6.mk (List.replicate 16 7) 255).assign "2001:db8:x".toList =
        ⟨[0x20, 1, 0xD, 0xB8] ++ List.replicate 12 7, 255⟩ := by
  refine ⟨fun h => ?_, fun h => ?_, by decide, by decide⟩
  · obtain ⟨q, hq, htext⟩ := (Ipv4.assignsText_iff _ _ _).mp h
    have hlen := (length_dottedQuad hq).1
    rw [← htext] at hlen
    exact absurd hlen (by decide)
  · obtain ⟨e, bs, haddr⟩ := (Ipv6.assignsText_iff rfl _).mp h
    have hchar := haddr.isAddressChar (show 'x' ∈ "2001:db8:x".toList by decide)
    obtain hc | hc | hc := hchar
    · exact absurd hc (by decide)
    · exact absurd hc (by decide)
    · exact absurd hc (by decide)

end Webpp.Ip
