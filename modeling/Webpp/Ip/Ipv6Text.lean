import Webpp.Ip.IpAddress

/-!
# Texts of `ipv6` values

`string` and `to_string` print the address and its prefix. Behind a prefix they write a NUL, and
count it: it belongs to the text. The parser of prefixes reads numbers of up to three digits to
the end of the text, and finds the NUL there.
-/

namespace Webpp.Ip

open Webpp.Text

namespace Ipv6

def hasPrefix (ip : Ipv6) : Bool := ip.prefixValue ≤ ipv6MaxPrefix

/-- The digits of a prefix. -/
def putPrefix (value : UInt8) : List Char :=
  let value := value.toNat
  if value < 10 then [digitChar value]
  else if value < 100 then [digitChar (value / 10), digitChar (value % 10)]
  else [digitChar (value / 100), digitChar (value % 100 / 10), digitChar (value % 10)]

/-- The characters that the callback of both functions writes to the buffer, up to the place it
returns. -/
def write (ip : Ipv6) : List Char :=
  inetNtop6 ip.data ++
    if ip.hasPrefix then '/' :: (putPrefix ip.prefixValue ++ ['\x00']) else []

def string (ip : Ipv6) : List Char := ip.write

/-- `to_string`, which appends to a text. -/
def toString (ip : Ipv6) (output : List Char) : List Char := output ++ ip.write

/-- What `string` returns and `to_string` appends is the same text, without a NUL, and the value
is read back from it. -/
structure RoundTrips (ip : Ipv6) : Prop where
  same : ∀ output, ip.toString output = output ++ ip.string
  noNul : '\x00' ∉ ip.string
  readBack : Ipv6.ofText ip.string = ip

/-! ## The parser on prefixes -/

theorem parsePrefix_putPrefix : ∀ value ≤ ipv6MaxPrefix,
    parsePrefix (putPrefix value) = value.toNat ∧
      parsePrefix (putPrefix value ++ ['\x00']) = -1 := by
  have hall : ∀ n ≤ 128, parsePrefix (putPrefix (UInt8.ofNat n)) = (UInt8.ofNat n).toNat ∧
      parsePrefix (putPrefix (UInt8.ofNat n) ++ ['\x00']) = -1 := by
    decide +kernel
  intro value hvalue
  have h := hall value.toNat (UInt8.le_iff_toNat_le.mp hvalue)
  rwa [UInt8.ofNat_toNat] at h

theorem inetPton6Prefix_of_address {addr bytes : List UInt8} (haddr : addr.length = 16)
    (hbytes : bytes.length = 16) (value : UInt8) (text : List Char) :
    inetPton6Prefix (inetNtop6 addr ++ '/' :: text) bytes value '/' =
      if parsePrefix text = -1 ∨ parsePrefix text > 128 then (.invalidPrefix, addr, value)
      else (.validSpecial, addr, UInt8.ofNat (parsePrefix text).toNat) := by
  obtain ⟨e, h⟩ := address_inetNtop6 haddr
  have hread := inetPton6_of_address not_isAddressChar_slash h hbytes
    (.special e text fun _ => rfl)
  rw [inetPton6Prefix, hread]
  simp

/-! ## Where the value is read back -/

theorem nul_notMem_inetNtop6 {addr : List UInt8} (haddr : addr.length = 16) :
    '\x00' ∉ inetNtop6 addr := by
  intro hmem
  obtain ⟨e, h⟩ := address_inetNtop6 haddr
  obtain hc | hc | hc := h.isAddressChar hmem
  · exact absurd hc (by decide)
  · exact absurd hc (by decide)
  · exact absurd hc (by decide)

theorem ofText_string_of_hasPrefix {ip : Ipv6} (hdata : ip.data.length = 16)
    (hpre : ip.prefixValue ≤ ipv6MaxPrefix) :
    Ipv6.ofText ip.string = ⟨ip.data, InetPton6Status.invalidPrefix.prefixStatus⟩ := by
  have hhas : ip.hasPrefix = true := decide_eq_true hpre
  have hread := inetPton6Prefix_of_address hdata (List.length_replicate (n := 16) (a := 0))
    InetPton6Status.valid.prefixStatus (putPrefix ip.prefixValue ++ ['\x00'])
  rw [if_pos (Or.inl (parsePrefix_putPrefix _ hpre).2)] at hread
  rw [Ipv6.ofText, string, write, if_pos hhas, hread]
  rfl

theorem ofText_string_of_valid {ip : Ipv6} (hdata : ip.data.length = 16)
    (hpre : ip.prefixValue = InetPton6Status.valid.prefixStatus) :
    Ipv6.ofText ip.string = ip := by
  have hhas : ip.hasPrefix = false := by rw [hasPrefix, hpre]; rfl
  have hread := inetPton6_inetNtop6 hdata (List.length_replicate (n := 16) (a := 0))
  rw [Ipv6.ofText, string, write, hhas, if_neg Bool.false_ne_true, List.append_nil,
    inetPton6Prefix, hread, ← hpre]
  rfl

/-- The valid values that are read back are those without a prefix. -/
theorem roundTrips_iff_hasPrefix {ip : Ipv6} (hdata : ip.data.length = 16)
    (hvalid : ip.isValid = true) :
    ip.RoundTrips ↔ ip.hasPrefix = false := by
  rw [isValid, Bool.or_eq_true, decide_eq_true_iff, beq_iff_eq] at hvalid
  constructor
  · intro h
    by_contra hhas
    rw [Bool.not_eq_false] at hhas
    refine h.noNul ?_
    rw [string, write, if_pos hhas]
    simp
  · intro hhas
    have hpre := hvalid.resolve_left (of_decide_eq_false hhas)
    refine ⟨fun output => rfl, ?_, ofText_string_of_valid hdata hpre⟩
    rw [string, write, hhas, if_neg Bool.false_ne_true, List.append_nil]
    exact nul_notMem_inetNtop6 hdata

theorem roundTrips_localhost :
    (Ipv6.mk (List.replicate 15 0 ++ [1]) 255).data.length = 16 ∧
      (Ipv6.mk (List.replicate 15 0 ++ [1]) 255).isValid = true ∧
      ((Ipv6.mk (List.replicate 15 0 ++ [1]) 255).RoundTrips ↔
        (Ipv6.mk (List.replicate 15 0 ++ [1]) 255).hasPrefix = false) :=
  ⟨rfl, rfl, roundTrips_iff_hasPrefix rfl rfl⟩

/-- `::/8` is printed with a NUL, and the text is no address with a prefix any more. -/
theorem not_roundTrips_prefix :
    ¬ (Ipv6.mk (List.replicate 16 0) 8).RoundTrips ∧
      (Ipv6.mk (List.replicate 16 0) 8).string = "::/8\x00".toList ∧
      (Ipv6.ofText (Ipv6.mk (List.replicate 16 0) 8).string).isValid = false := by
  refine ⟨fun h => h.noNul (by decide), by decide, ?_⟩
  rw [ofText_string_of_hasPrefix rfl (by decide)]
  rfl

end Ipv6

end Webpp.Ip
