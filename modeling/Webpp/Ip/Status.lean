import Mathlib.Data.UInt

/-!
# Status of an IP parser

The statuses of `inet_pton4` and `inet_pton6` share the numbers of
`ip_address_status`, all of them above 128, so that one byte holds either a
prefix or a status.
-/

namespace Webpp.Ip

def ipv4ByteCount : ℕ := 4
def ipv6ByteCount : ℕ := 16
def maxIpv4StrLen : ℕ := 15
def maxIpv6StrLen : ℕ := 45
def ipv4MaxPrefix : UInt8 := 32
def ipv6MaxPrefix : UInt8 := 128

inductive InetPton4Status where
  | valid
  | validSpecial
  | tooLittleOctets
  | tooManyOctets
  | invalidOctetRange
  | invalidLeadingZero
  | invalidCharacter
  | badEnding
  | invalidPrefix
  deriving DecidableEq, Repr

inductive InetPton6Status where
  | valid
  | validSpecial
  | invalidCharacter
  | badEnding
  | invalidPrefix
  | invalidOctetRange
  | invalidColonUsage
  deriving DecidableEq, Repr

/-- The number of a status, which `prefix_status` stores. -/
def InetPton4Status.prefixStatus : InetPton4Status → UInt8
  | valid => 255
  | validSpecial => 254
  | tooLittleOctets => 253
  | tooManyOctets => 252
  | invalidOctetRange => 251
  | invalidLeadingZero => 250
  | invalidCharacter => 249
  | badEnding => 248
  | invalidPrefix => 247

/-- The number of a status, which `prefix_status` stores. -/
def InetPton6Status.prefixStatus : InetPton6Status → UInt8
  | valid => 255
  | validSpecial => 254
  | invalidOctetRange => 251
  | invalidCharacter => 249
  | badEnding => 248
  | invalidPrefix => 247
  | invalidColonUsage => 246

def InetPton4Status.isValid (status : InetPton4Status) : Bool :=
  status == valid || status == validSpecial

def InetPton6Status.isValid (status : InetPton6Status) : Bool :=
  status == valid || status == validSpecial

theorem InetPton4Status.prefixStatus_injective :
    Function.Injective InetPton4Status.prefixStatus := by
  intro s t h
  cases s <;> cases t <;> first | rfl | exact absurd h (by decide)

end Webpp.Ip
