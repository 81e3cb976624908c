import Mathlib.Data.Finset.Insert
import Webpp.Ip.Status

/-!
# Status of a URI parser

The status holds one value, which is valid or an error, and a set of warnings.
In the source they are bits of one integer: the value and the warnings have no
bit in common.
-/

namespace Webpp.Uri

/-- The values of `uri_status` that are no warnings. -/
inductive UriStatus where
  | unparsed
  | valid
  | validPunycode
  | validPathOrAuthority
  | validAuthority
  | validFileHost
  | validPort
  | validAuthorityEnd
  | validPath
  | validOpaquePath
  | validQueries
  | validFragment
  | emptyString
  | invalidSchemeCharacter
  | schemeEndedUnexpectedly
  | missingSchemeNonRelativeUrl
  | hostMissing
  | invalidHostCodePoint
  | invalidDomainCodePoint
  | ipTooLittleOctets
  | ipTooManyOctets
  | ipInvalidOctetRange
  | ipBadEnding
  | ipInvalidCharacter
  | ipInvalidPrefix
  | ipInvalidColonUsage
  | ipv6Unclosed
  | ipv6CharAfterClosing
  | portOutOfRange
  | portInvalid
  | invalidQueriesCharacter
  deriving DecidableEq, Repr

/-- The values of `uri_status` that are warnings. -/
inductive UriWarning where
  | invalidCharacter
  | missingFollowingSolidus
  | hasCredentials
  | ipv4TrailingEmptyOctet
  | ipv4NonDecimalOctet
  | reverseSolidusUsed
  | windowsDriveLetterUsed
  | windowsDriveLetterAsHost
  deriving DecidableEq, Repr

/-- The error bit of a value. -/
def UriStatus.hasError : UriStatus → Bool
  | unparsed | valid | validPunycode | validPathOrAuthority | validAuthority
  | validFileHost | validPort | validAuthorityEnd | validPath | validOpaquePath
  | validQueries | validFragment => false
  | _ => true

/-- `error_bit | ipv6_parsing_result`; the numbers of the two valid results name no
error. -/
def UriStatus.ofInetPton6 : Ip.InetPton6Status → UriStatus
  | .valid | .validSpecial => unparsed
  | .invalidCharacter => ipInvalidCharacter
  | .badEnding => ipBadEnding
  | .invalidPrefix => ipInvalidPrefix
  | .invalidOctetRange => ipInvalidOctetRange
  | .invalidColonUsage => ipInvalidColonUsage

structure Status where
  value : UriStatus
  warnings : Finset UriWarning
  deriving DecidableEq

def Status.start : Status := ⟨.unparsed, ∅⟩

/-- The warnings stay. -/
def Status.setValid (status : Status) (value : UriStatus) : Status :=
  { status with value := value }

/-- The warnings are lost. -/
def Status.setError (_status : Status) (value : UriStatus) : Status := ⟨value, ∅⟩

/-- The value stays, also an error. -/
def Status.setWarning (status : Status) (warning : UriWarning) : Status :=
  { status with warnings := insert warning status.warnings }

def Status.hasError (status : Status) : Bool := status.value.hasError

@[simp] theorem Status.setValid_value (status : Status) (value : UriStatus) :
    (status.setValid value).value = value := rfl

@[simp] theorem Status.setError_value (status : Status) (value : UriStatus) :
    (status.setError value).value = value := rfl

@[simp] theorem Status.setWarning_value (status : Status) (warning : UriWarning) :
    (status.setWarning warning).value = status.value := rfl

end Webpp.Uri
