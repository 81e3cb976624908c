import Webpp.Text.Search
import Webpp.Uri.Host

/-!
# URIs in strings

`uri_string` keeps the text of a URI and looks for a component when it is asked for. An offset
that was found is kept for the next call. The offset of a component that is not there is the
size of the text, and `none` stands for `npos`, the offset of a component that nobody has asked
for yet.
-/

namespace Webpp.Uri

open Text (span findFirstOf findFrom findLastOf)

/-! ## Kinds of texts -/

def schemeNotFirst (c : Char) : Bool := alphaDigit c || ['+', '-', '.'].contains c

/-- `ascii::iequals_sl(scheme, "urn")`. -/
def isUrn (scheme : List Char) : Bool := scheme.map toLowerCopy == ['u', 'r', 'n']

/-- `ascii::is::digit` of a text. -/
def isDigits (text : List Char) : Bool := text.all Text.isDigit

/-- `to_int` and `to_uint` of digits. -/
def toInt (digits : List Char) : ℕ := digits.foldl (fun n c => n * 10 + Text.digitValue c) 0

/-- `max_port_number` of `uri_string`. -/
def UriString.maxPortNumber : ℕ := 65535

/-! ## The searches -/

/-- What `parse_scheme` finds. -/
structure SchemeOffsets where
  schemeEnd : ℕ
  authorityStart : ℕ
  error : Bool
  deriving DecidableEq

def schemeOf (data : List Char) : SchemeOffsets :=
  if data.take 2 = ['/', '/'] then ⟨data.length, 2, false⟩
  else
    match findFirstOf [':'] data with
    | none => ⟨data.length, data.length, false⟩
    | some colon =>
        let scheme := data.take colon
        -- `find_first_not_of` is read as a condition: it fails at the index zero only
        if data.head?.any asciiAlpha &&
            ((scheme.drop 1).findIdx? fun c => !schemeNotFirst c) != some 0 then
          if (data.drop (colon + 1)).take 2 = ['/', '/'] then ⟨colon, colon + 3, false⟩
          else ⟨colon, data.length, !isUrn scheme⟩
        else ⟨data.length, data.length, true⟩

/-- What `parse_user_info` finds in front of the offset `nextSection`. -/
def userInfoEndOf (data : List Char) (authorityStart nextSection : ℕ) : ℕ :=
  if authorityStart = data.length then data.length
  else
    let text := span data authorityStart nextSection
    match findFirstOf [':', '[', '@'] text with
    | none => data.length
    | some 0 => if text.head? ≠ some '[' then 0 else data.length
    | some (i + 1) =>
        if text[i + 1]? = some '@' then i + 1 + authorityStart
        else if text[i + 1]? = some ':' then
          match findFrom '@' (i + 1) text with
          | none => data.length
          | some j => j + authorityStart
        else i + 1

/-- What `parse_fragment` finds. -/
def fragmentStartOf (data : List Char) : ℕ := (findFirstOf ['#'] data).getD data.length

/-- What `parse_query` finds. -/
def queryStartOf (data : List Char) (fragmentStart : ℕ) : ℕ :=
  (findFirstOf ['?'] (data.take fragmentStart)).getD data.length

/-- What `parse_path` finds. -/
def authorityEndOf (data : List Char) (schemeEnd authorityStart queryStart : ℕ) : ℕ :=
  if authorityStart = data.length ∧ schemeEnd = data.length then 0
  else
    let urn := schemeEnd != data.length && isUrn (data.take schemeEnd)
    let start :=
      if authorityStart ≠ data.length then (findFrom '@' authorityStart data).getD authorityStart
      else schemeEnd
    match findFirstOf [if urn then ':' else '/'] (span data start queryStart) with
    | none => data.length
    | some i => i + (start + urn.toNat)

/-- What `parse_port` finds in an authority, with its error. -/
def portStartOf (data : List Char) (authorityStart userInfoEnd authorityEnd : ℕ) : ℕ × Bool :=
  let start := if userInfoEnd ≠ data.length then userInfoEnd else authorityStart
  let hostPort := span data start authorityEnd
  match findLastOf [':', ']'] hostPort with
  | none => (data.length, false)
  | some i =>
      if hostPort.getLast? = some ']' then (data.length, false)
      else
        let portStart := i + start
        let portView := span data (portStart + 1) authorityEnd
        if portView.isEmpty then (portStart, false)
        else if !isDigits portView then (data.length, true)
        else (portStart, decide (UriString.maxPortNumber < toInt portView))

/-! ## The state -/

/-- `uri_string`, with the flags of `errors` that are ever set. -/
structure UriString where
  data : List Char
  schemeEnd : Option ℕ := none
  authorityStart : Option ℕ := none
  userInfoEnd : Option ℕ := none
  portStart : Option ℕ := none
  authorityEnd : Option ℕ := none
  queryStart : Option ℕ := none
  fragmentStart : Option ℕ := none
  errorsScheme : Bool := false
  errorsPort : Bool := false
  deriving DecidableEq

namespace UriString

/-- The value of an offset that has been looked for. -/
def offset (u : UriString) (field : UriString → Option ℕ) : ℕ := (field u).getD u.data.length

def parseScheme (u : UriString) : UriString :=
  if u.schemeEnd.isSome then u
  else
    let found := schemeOf u.data
    { u with
      schemeEnd := some found.schemeEnd
      authorityStart := some found.authorityStart
      errorsScheme := u.errorsScheme || found.error }

/-- `next_section`, where `npos` is greater than every offset. -/
def nextSection (u : UriString) : ℕ :=
  min (min (min (u.offset authorityEnd) (u.offset queryStart)) (u.offset fragmentStart))
    u.data.length

def parseUserInfo (u : UriString) : UriString :=
  if u.userInfoEnd.isSome then u
  else
    let u := u.parseScheme
    { u with userInfoEnd := some (userInfoEndOf u.data (u.offset authorityStart) u.nextSection) }

def parseFragment (u : UriString) : UriString :=
  if u.fragmentStart.isSome then u
  else { u with fragmentStart := some (fragmentStartOf u.data) }

def parseQuery (u : UriString) : UriString :=
  if u.queryStart.isSome then u
  else
    let u := u.parseFragment
    { u with queryStart := some (queryStartOf u.data (u.offset fragmentStart)) }

def parsePath (u : UriString) : UriString :=
  if u.authorityEnd.isSome then u
  else
    let u := u.parseScheme.parseQuery
    { u with
      authorityEnd :=
        some (authorityEndOf u.data (u.offset schemeEnd) (u.offset authorityStart)
          (u.offset queryStart)) }

def parsePort (u : UriString) : UriString :=
  if u.portStart.isSome then u
  else
    let u := u.parseUserInfo
    if u.authorityStart = some u.data.length then { u with portStart := some u.data.length }
    else
      let u := u.parsePath
      let found :=
        portStartOf u.data (u.offset authorityStart) (u.offset userInfoEnd)
          (u.offset authorityEnd)
      { u with portStart := some found.1, errorsPort := u.errorsPort || found.2 }

def parseHost (u : UriString) : UriString := u.parseUserInfo.parsePort.parsePath

/-! ## The getters -/

/-- A getter that parses and reads what it has found. -/
def after {α : Type} (parse : UriString → UriString) (read : UriString → α) :
    StateM UriString α := do
  modify parse
  return read (← get)

def hasScheme : StateM UriString Bool :=
  after parseScheme fun u =>
    !(u.offset schemeEnd == u.data.length && u.offset schemeEnd != 0)

def scheme : StateM UriString (List Char) :=
  after parseScheme fun u =>
    if u.offset schemeEnd = u.data.length then [] else u.data.take (u.offset schemeEnd)

def hasUserInfo : StateM UriString Bool :=
  after parseUserInfo fun u =>
    u.offset userInfoEnd != u.data.length && u.offset authorityStart != u.data.length

def userInfoRaw : StateM UriString (List Char) :=
  after parseUserInfo fun u =>
    if u.offset userInfoEnd = u.data.length ∨ u.offset authorityStart = u.data.length then []
    else span u.data (u.offset authorityStart) (u.offset userInfoEnd)

/-- `has_username` reads the offset and looks for nothing. -/
def hasUsername : StateM UriString Bool := do
  return (← get).userInfoEnd != some (← get).data.length

def usernameRaw : StateM UriString (List Char) := do
  let userInfo ← userInfoRaw
  match findFirstOf [':'] userInfo with
  | none => return userInfo
  | some colon => return userInfo.take colon

def hasPassword : StateM UriString Bool := do
  return (findFirstOf [':'] (← userInfoRaw)).isSome

def passwordRaw : StateM UriString (List Char) := do
  let userInfo ← userInfoRaw
  match findFirstOf [':'] userInfo with
  | none => return []
  | some found => return userInfo.drop (found + 1)

/-- Where `host_raw` starts. -/
def hostStart (u : UriString) : ℕ :=
  if u.offset userInfoEnd = u.data.length then u.offset authorityStart
  else if u.data[u.offset userInfoEnd]? = some '@' then u.offset userInfoEnd + 1
  else u.offset userInfoEnd

def hostRaw : StateM UriString (List Char) :=
  after parseHost fun u =>
    if u.offset authorityStart = u.data.length then []
    else if u.offset portStart ≠ u.data.length then
      span u.data u.hostStart (u.offset portStart)
    else if u.offset authorityEnd ≠ u.data.length then
      span u.data u.hostStart (u.offset authorityEnd)
    else if u.offset queryStart ≠ u.data.length then
      span u.data u.hostStart (u.offset queryStart)
    else if u.offset fragmentStart ≠ u.data.length then
      span u.data u.hostStart (u.offset fragmentStart)
    else if u.hostStart = u.data.length then []
    else (u.data.drop u.hostStart).take (u.data.length - 1)

def hasHost : StateM UriString Bool := do return !(← hostRaw).isEmpty

/-- `is::ipv4`. -/
def isIpv4 (str : List Char) : Bool := (Ip.inetPton4 str [0, 0, 0, 0] 0 '/').status == .valid

def isIp : StateM UriString Bool := do
  let host ← hostRaw
  return isIpv4 host || (host.head? == some '[' && host.getLast? == some ']')

/-- `find_last_of('.', last_dot - 1)`, where the position wraps at a dot in front. -/
def dotBefore (host : List Char) (lastDot : ℕ) : Option ℕ :=
  findLastOf ['.'] (if lastDot = 0 then host else host.take lastDot)

/-- A part of a host that is a name. -/
def ofDomain (part : List Char → List Char) : StateM UriString (List Char) := do
  let host ← hostRaw
  if host.isEmpty then return []
  else if ← isIp then return []
  else return part host

def topLevelDomain : StateM UriString (List Char) :=
  ofDomain fun host =>
    match findLastOf ['.'] host with
    | none => host
    | some dot => host.drop (dot + 1)

def hasTopLevelDomain : StateM UriString Bool := do return !(← topLevelDomain).isEmpty

def secondLevelDomain : StateM UriString (List Char) :=
  ofDomain fun host =>
    match findLastOf ['.'] host with
    | none => []
    | some lastDot =>
        let start := match dotBefore host lastDot with
          | none => 0
          | some dot => dot + 1
        span host start lastDot

def hasSecondLevelDomain : StateM UriString Bool := do return !(← secondLevelDomain).isEmpty

def subdomains : StateM UriString (List Char) :=
  ofDomain fun host =>
    match findLastOf ['.'] host with
    | none => []
    | some lastDot =>
        match dotBefore host lastDot with
        | none => []
        | some dot => host.take dot

def hasSubdomains : StateM UriString Bool := do return !(← subdomains).isEmpty

def hasPort : StateM UriString Bool :=
  after parsePort fun u => u.offset portStart != u.data.length

/-- `port`, which ends in front of the last character if there is no path. -/
def port : StateM UriString (List Char) :=
  after parsePort fun u =>
    if u.offset portStart = u.data.length then []
    else
      span u.data (u.offset portStart + 1)
        (if u.offset authorityEnd = u.data.length then u.offset authorityEnd - 1
          else u.offset authorityEnd)

def defaultPort : StateM UriString ℕ := do
  let scheme ← scheme
  if scheme = "http".toList then return 80
  else if scheme = "https".toList then return 443
  else if scheme = "ftp".toList then return 21
  else if scheme = "ssh".toList then return 22
  else if scheme = "telnet".toList then return 23
  else if scheme = "ftps".toList then return 990
  else return 0

def portUint16 : StateM UriString ℕ := do
  if ← hasPort then return toInt (← port) % 2 ^ 16
  else defaultPort

def hasPath : StateM UriString Bool :=
  after parsePath fun u => u.offset authorityEnd != u.data.length

def pathRaw : StateM UriString (List Char) :=
  after parsePath fun u =>
    if u.offset authorityEnd = u.data.length then []
    else span u.data (u.offset authorityEnd) (min (u.offset queryStart) (u.offset fragmentStart))

def hasQueries : StateM UriString Bool :=
  after parseQuery fun u => u.offset queryStart != u.data.length

def queriesRaw : StateM UriString (List Char) :=
  after parseQuery fun u =>
    if u.offset queryStart = u.data.length then []
    else span u.data (u.offset queryStart + 1) (u.offset fragmentStart)

def hasFragment : StateM UriString Bool :=
  after parseFragment fun u => u.offset fragmentStart != u.data.length

def fragment : StateM UriString (List Char) :=
  after parseFragment fun u => u.data.drop (u.offset fragmentStart + 1)

def hasAuthority : StateM UriString Bool := do
  if ← hasHost then return true
  else if ← hasUserInfo then return true
  else hasPort

def hasValidScheme : StateM UriString Bool := do
  let scheme ← scheme
  return !scheme.isEmpty || (← get).errorsScheme

/-- `has_valid_host`, `has_valid_path`, `has_valid_queries`, `has_valid_fragment` and
`has_valid_user_info`: nothing sets their errors. -/
def hasValid (getter : StateM UriString (List Char)) : StateM UriString Bool := do
  return !(← getter).isEmpty || !false

def hasValidPort : StateM UriString Bool := do
  let port ← port
  if !port.isEmpty then return true
  else if (← get).errorsPort then return false
  else return (← portUint16) != 0

/-! ## Calls -/

/-- The getters whose answer is a part of the URI or a flag. -/
inductive Getter where
  | scheme | userInfoRaw | usernameRaw | passwordRaw | hostRaw | port | pathRaw | queriesRaw
  | fragment
  | hasScheme | hasUserInfo | hasUsername | hasPassword | hasHost | hasTopLevelDomain
  | hasSecondLevelDomain | hasSubdomains | hasPort | hasPath | hasQueries | hasFragment
  | hasAuthority
  | hasValidScheme | hasValidHost | hasValidPath | hasValidPort | hasValidQueries
  | hasValidFragment | hasValidUserInfo
  deriving DecidableEq

inductive Answer where
  | flag (b : Bool)
  | text (t : List Char)
  deriving DecidableEq

namespace Getter

def call : Getter → StateM UriString Answer
  | scheme => .text <$> UriString.scheme
  | userInfoRaw => .text <$> UriString.userInfoRaw
  | usernameRaw => .text <$> UriString.usernameRaw
  | passwordRaw => .text <$> UriString.passwordRaw
  | hostRaw => .text <$> UriString.hostRaw
  | port => .text <$> UriString.port
  | pathRaw => .text <$> UriString.pathRaw
  | queriesRaw => .text <$> UriString.queriesRaw
  | fragment => .text <$> UriString.fragment
  | hasScheme => .flag <$> UriString.hasScheme
  | hasUserInfo => .flag <$> UriString.hasUserInfo
  | hasUsername => .flag <$> UriString.hasUsername
  | hasPassword => .flag <$> UriString.hasPassword
  | hasHost => .flag <$> UriString.hasHost
  | hasTopLevelDomain => .flag <$> UriString.hasTopLevelDomain
  | hasSecondLevelDomain => .flag <$> UriString.hasSecondLevelDomain
  | hasSubdomains => .flag <$> UriString.hasSubdomains
  | hasPort => .flag <$> UriString.hasPort
  | hasPath => .flag <$> UriString.hasPath
  | hasQueries => .flag <$> UriString.hasQueries
  | hasFragment => .flag <$> UriString.hasFragment
  | hasAuthority => .flag <$> UriString.hasAuthority
  | hasValidScheme => .flag <$> UriString.hasValidScheme
  | hasValidHost => .flag <$> hasValid UriString.hostRaw
  | hasValidPath => .flag <$> hasValid UriString.pathRaw
  | hasValidPort => .flag <$> UriString.hasValidPort
  | hasValidQueries => .flag <$> hasValid UriString.queriesRaw
  | hasValidFragment => .flag <$> hasValid UriString.fragment
  | hasValidUserInfo => .flag <$> hasValid UriString.userInfoRaw

/-- The answer of the first call. -/
def first (data : List Char) (g : Getter) : Answer := (g.call { data := data }).1

/-- The state behind a call. -/
def step (u : UriString) (g : Getter) : UriString := (g.call u).2

end Getter

end UriString

end Webpp.Uri
