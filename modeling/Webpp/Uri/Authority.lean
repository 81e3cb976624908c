import Webpp.Uri.Path
import Webpp.Uri.Scheme

/-!
# Authorities

Credentials, host and port. `parse_authority_pieces` goes once over all three: a colon may
begin a port or a password, and what is read before an `@` turns out to be no host.
-/

namespace Webpp.Uri

open ComponentEncoder Loop Webpp.Text

variable {σ : Type}

/-! ## Ports -/

def maxPortNumber : ℕ := 65535

/-- The loop of `parse_port`: the value of the digits, with the position behind them.
`none` is an error. -/
def portLoop (o : Options) : List Char → ℕ → Ctx σ → Option ℕ × Ctx σ
  | [], value, ctx => (some value, { ctx with pos := [] })
  | c :: pos, value, ctx =>
      if isDigit c then
        if value * 10 + digitValue c > maxPortNumber then
          (none, { ctx with pos := pos }.setError .portOutOfRange)
        else portLoop o pos (value * 10 + digitValue c) ctx
      else if c = '\\' ∨ c = '\x00' ∨ c = '/' ∨ c = '?' ∨ c = '#' then
        (some value, { ctx with pos := c :: pos })
      else if isTabOrNewline c ∧ o.ignoreTabsOrNewlines then
        portLoop o pos value (ctx.setWarning .invalidCharacter)
      else (none, { ctx with pos := c :: pos }.setError .portInvalid)

/-- The leading zeros before the last character of the port, which is one before `pos`. -/
def skipLeadingZeros (pos : List Char) : List Char → Run (List Char)
  | [] => .error .readPastEnd
  | c :: beg =>
      if beg.length = pos.length then .ok (c :: beg)
      else if c = '0' then skipLeadingZeros pos beg
      else .ok (c :: beg)

def parsePort (o : Options) (O : Output σ) (ctx : Ctx σ) : Run (Ctx σ) :=
  if ctx.pos = [] then pure (ctx.setValid .valid)
  else if !o.parsePort then pure (ctx.setWarning .invalidCharacter)
  else
    let r := portLoop o ctx.pos 0 ctx
    match r.1 with
    | none => pure r.2
    | some value => do
        let beg ← skipLeadingZeros r.2.pos ctx.pos
        let out :=
          if value = knownPort (O.view .scheme r.2.out) then O.clear .port r.2.out
          else O.setValue .port beg r.2.pos r.2.out
        pure ({ r.2 with out := out }.setValid .validAuthorityEnd)

/-! ## Credentials -/

/-- `encode_or_set` of a component that is cleared first. -/
def resetAndEncode (O : Output σ) (comp : Components) (beg fin : List Char)
    (ctx : Ctx σ) : Ctx σ :=
  (encodeOrSet O comp beg fin userInfoEncodeSet
    (ofCtx { ctx with out := O.clear comp ctx.out })).ctx

/-- `parse_credentials` at an `@`. Without a colon, `passwordTokenPos` is the end. -/
def parseCredentials (O : Output σ) (beg passwordTokenPos : List Char) (ctx : Ctx σ) :
    Ctx σ :=
  let ctx := ctx.setWarning .hasCredentials
  let atsignPos := ctx.pos
  if atsignPos = [] then ctx
  else
    let usernameEnd :=
      if passwordTokenPos.length < atsignPos.length then atsignPos else passwordTokenPos
    let ctx := resetAndEncode O .username beg usernameEnd ctx
    if passwordTokenPos = [] then ctx
    else resetAndEncode O .password passwordTokenPos.tail atsignPos ctx

/-! ## `parse_authority_pieces` -/

def forbiddenDomains : AsciiBitmap := forbiddenDomainCodePoints.union (asciiBitmap ['.'])

def forbiddenHosts (O : Output σ) : AsciiBitmap :=
  (if O.isSegregated then forbiddenHostCodePoints.union (asciiBitmap ['.'])
    else forbiddenHostCodePoints).union (asciiBitmap ['%'])

/-- The characters at which the loop of `parse_authority_pieces` stops. -/
def authorityInteresting (O : Output σ) (isSpecial : Bool) : AsciiBitmap :=
  if !isSpecial then forbiddenHosts O
  else if O.isModifiable then forbiddenDomains.union upperAlpha
  else forbiddenDomains

/-- The variables of the loop of `parse_authority_pieces`; `colonPos` is the end before
the first colon. -/
structure AuthorityState (σ : Type) where
  coder : ComponentEncoder σ
  hostBegin : List Char
  colonPos : List Char
  mustContainCredentials : Bool

/-- How the loop of `parse_authority_pieces` ends. -/
inductive AuthorityExit (σ : Type) where
  | broke (s : AuthorityState σ) (skipLastChar : Bool)
  | returned (ctx : Ctx σ)

/-- A round of the loop of `parse_authority_pieces`. -/
abbrev AuthorityFlow (σ : Type) := Flow (AuthorityState σ) (AuthorityExit σ)

section Pieces

variable (o : Options) (O : Output σ) (isSpecial : Bool) (authorityBegin : List Char)

def AuthorityState.setCoder (s : AuthorityState σ) (coder : ComponentEncoder σ) :
    AuthorityState σ := { s with coder := coder }

def invalidCodePoint : UriStatus :=
  if isSpecial then .invalidDomainCodePoint else .invalidHostCodePoint

/-- The end of the loop behind the switch. -/
def authorityBreak (s : AuthorityState σ) (skipLastChar : Bool) : AuthorityFlow σ :=
  let e := s.coder
  if s.mustContainCredentials then .done (.returned e.ctx)
  else if e.ctx.pos.length = s.hostBegin.length then
    if o.emptyHostIsError && isSpecial then .done (.returned (e.ctx.setError .hostMissing))
    else if e.ctx.pos = [] then
      .done (.broke (s.setCoder (e.setValid .validPath)) skipLastChar)
    else .done (.broke s skipLastChar)
  else .done (.broke s skipLastChar)

/-- The case of a colon: a port, or the start of a password. -/
def authorityColon (s : AuthorityState σ) : Run (AuthorityFlow σ) :=
  let e := s.coder
  if !o.parseCredentails && !o.parsePort then do
    let e ← (e.setWarning .invalidCharacter).ignoreCharacter
    pure (.next (s.setCoder e))
  else if !o.parseCredentails then
    pure (authorityBreak o isSpecial (s.setCoder (e.setValid .validPort)) false)
  else do
    let colonPos := if s.colonPos = [] then e.ctx.pos else s.colonPos
    let prePortPos := e.ctx.pos
    let pos ← advance e.ctx.pos 1
    -- the options of the caller are not passed on
    let ctx ← parsePort standardUriParsingOptions O ((e.setPos pos).setValid .validPort).ctx
    if ctx.status.value = .portInvalid then
      let e := { e with ctx := { ctx with pos := pos, out := O.clear .port ctx.out } }
      pure (.next ⟨e, s.hostBegin, colonPos, true⟩)
    else
      let e := endSegmentOf O .host e.beg prePortPos { e with ctx := ctx }
      let ctx := (setValueOf O .host s.hostBegin prePortPos e).ctx
      if prePortPos.length = s.hostBegin.length then
        if o.emptyHostIsError && isSpecial then
          pure (.done (.returned (ctx.setError .hostMissing)))
        else if ctx.pos = [] then pure (.done (.returned (ctx.setValid .validPath)))
        else pure (.done (.returned ctx))
      else pure (.done (.returned ctx))

/-- The case of an `@`: what is before it is credentials and no host. -/
def authorityAtsign (s : AuthorityState σ) : Run (AuthorityFlow σ) :=
  if o.parseCredentails then do
    let ctx := parseCredentials O authorityBegin s.colonPos s.coder.ctx
    let pos ← advance ctx.pos 1
    let ctx := { ctx with pos := pos, out := O.clear .host ctx.out }
    let e := startSegment O .host { s.coder with ctx := ctx }.resetBegin
    pure (.next ⟨e, pos, s.colonPos, false⟩)
  else
    pure (.done (.returned
      ((s.coder.ctx.setWarning .hasCredentials).setWarning .invalidCharacter)))

/-- The cases of `?` and `#`. -/
def authorityEndsAt (parse : Bool) (value : UriStatus) (s : AuthorityState σ) :
    Run (AuthorityFlow σ) :=
  if s.mustContainCredentials then pure (.done (.returned s.coder.ctx))
  else if parse then
    pure (authorityBreak o isSpecial (s.setCoder (s.coder.setValid value)) true)
  else do
    let e ← skipSeparator O .host (s.coder.setWarning .invalidCharacter)
    pure (.next (s.setCoder e))

/-- The case of a `\0`. -/
def authorityNull (s : AuthorityState σ) : AuthorityFlow σ :=
  let e := s.coder
  if s.mustContainCredentials then .done (.returned e.ctx)
  else if o.eofIsValid then
    if o.emptyHostIsError ∧ e.ctx.pos.length = s.hostBegin.length then
      .done (.returned (e.ctx.setError .hostMissing))
    else authorityBreak o isSpecial (s.setCoder (e.setValid .validPath)) false
  else .done (.returned (e.ctx.setError (invalidCodePoint isSpecial)))

/-- The case of a `/`, and of a `\` in a special URI. -/
def authoritySlash (s : AuthorityState σ) : AuthorityFlow σ :=
  if s.mustContainCredentials then .done (.returned s.coder.ctx)
  else authorityBreak o isSpecial (s.setCoder (s.coder.setValid .validPath)) false

/-- The switch of `parse_authority_pieces`. -/
def authoritySwitch (s : AuthorityState σ) (c : Char) : Run (AuthorityFlow σ) :=
  let e := s.coder
  match c with
  | '[' => do
      let ctx ← parseHostIpv6 O e.ctx
      pure (.done (.returned ctx))
  | ':' => authorityColon o O isSpecial s
  | '\\' =>
      pure (if isSpecial then authoritySlash o isSpecial s else authorityBreak o isSpecial s false)
  | '/' => pure (authoritySlash o isSpecial s)
  | '.' => do
      let e ← nextSegment O .host e
      pure (.next (s.setCoder e))
  | '?' => authorityEndsAt o O isSpecial o.parseQueries .validQueries s
  | '#' => authorityEndsAt o O isSpecial o.parseFragment .validFragment s
  | '%' =>
      if isSpecial then pure (.done (.returned (e.ctx.setError .invalidDomainCodePoint)))
      else do
        let r ← validatePercentEncode O .host o.ignoreTabsOrNewlines e
        pure (.next (s.setCoder (if r.1 then r.2 else r.2.setWarning .invalidCharacter)))
  | '\t' | '\n' | '\r' =>
      if o.ignoreTabsOrNewlines then do
        let e ← (e.setWarning .invalidCharacter).ignoreCharacter
        pure (.next (s.setCoder e))
      else pure (.done (.returned (e.ctx.setError (invalidCodePoint isSpecial))))
  | '@' => authorityAtsign o O authorityBegin s
  | '\x00' => pure (authorityNull o isSpecial s)
  | _ => pure (.done (.returned (e.ctx.setError (invalidCodePoint isSpecial))))

/-- One round of the loop of `parse_authority_pieces`. -/
def authorityStep (s : AuthorityState σ) : Run (AuthorityFlow σ) := do
  let r ←
    if isSpecial then decodeOrTolower O .host (authorityInteresting O isSpecial) s.coder
    else pure (encodeOrValidate O .host c0ControlEncodeSet (authorityInteresting O isSpecial)
      s.coder)
  let s := s.setCoder r.2
  if r.1 then
    if o.emptyHostIsError && !isSpecial &&
        s.coder.ctx.pos.length == authorityBegin.length then
      pure (.done (.returned (s.coder.ctx.setError .hostMissing)))
    else pure (.done (.broke (s.setCoder (s.coder.setValid .validPath)) false))
  else do
    let c ← deref s.coder.ctx.pos
    authoritySwitch o O isSpecial authorityBegin s c

/-- `if (skip_last_char) ++ctx.pos`. -/
def skipLast (skipLastChar : Bool) (e : ComponentEncoder σ) : Run (Ctx σ) :=
  if skipLastChar then do
    let e ← e.ignoreCharacter
    pure e.ctx
  else pure e.ctx

/-- What follows the loop of `parse_authority_pieces`. -/
def authorityHostEnd (s : AuthorityState σ) (skipLastChar : Bool) : Run (Ctx σ) := do
  let store (e : ComponentEncoder σ) : Run (Ctx σ) :=
    skipLast skipLastChar (setValue O .host (endSegment O .host e))
  let r ← isPossibleEndsWithIpv4 o s.hostBegin s.coder.ctx
  let e := { s.coder with ctx := r.2 }
  if r.1 then do
    let r ← parseHostIpv4 o (slice s.hostBegin e.ctx.pos) e.ctx
    match r.1 with
    | none => pure r.2
    | some octets =>
        let e := { e with ctx := r.2 }
        if O.isModifiable then
          let e := startSegment O .host (e.setOut (O.clear .host e.ctx.out))
          skipLast skipLastChar (appendTo O .host (ipv4Text octets) e)
        else store e
  else store e

def parseAuthorityPieces (ctx : Ctx σ) : Run (Ctx σ) := do
  let e := startSegment O .host (ofCtx ctx)
  let exit ← loop (authorityStep o O isSpecial ctx.pos) .diverges (ctx.pos.length + 1)
    ⟨e, ctx.pos, [], false⟩
  match exit with
  | .returned ctx => pure ctx
  | .broke s skipLastChar => authorityHostEnd o O s skipLastChar

end Pieces

/-! ## The host of a file -/

/-- `starts_with_windows_driver_letter`: up to three characters behind the slashes. -/
def startsWithWindowsDriverLetter (o : Options) (pos : List Char) : Bool :=
  match pos with
  | [] => false
  | [_] => false
  | [c, c'] => hasWindowsDriverLetter c c'
  | pos => go pos []
where
  go : List Char → List Char → Bool
    | [], letters => found letters
    | c :: pos, letters =>
        if letters.length = 3 then found letters
        else if isTabOrNewline c then o.ignoreTabsOrNewlines && go pos letters
        else if (c = '\\' ∨ c = '/') ∧ letters = [] then go pos letters
        else go pos (letters ++ [c])
  found (letters : List Char) : Bool :=
    let letter (i : ℕ) := letters.getD i '\x00'
    hasWindowsDriverLetter (letter 0) (letter 1) &&
      ['/', '\\', '?', '#'].contains (letter 2)

/-- Back to a slash, or to the start of the input; `before` is what is before `pos`,
read backwards. -/
def backToSlash : (before pos : List Char) → Run (List Char)
  | before, pos => do
      let c ← deref pos
      if c = '/' ∨ c = '\\' then pure pos
      else
        match before with
        | [] => .error .moveBeforeBegin
        | [c] => pure (c :: pos)
        | c :: before => backToSlash before (c :: pos)

/-- `iiequals_fl`: equality up to the case of the second text and up to tabs and
newlines. -/
def iiequalsFl : List Char → List Char → Bool
  | [], rhs => rhs.all isTabOrNewline
  | l :: lhs, [] => (l :: lhs).all isTabOrNewline
  | l :: lhs, r :: rhs =>
      if l = toLowerCopy r then iiequalsFl lhs rhs
      else if isTabOrNewline l then iiequalsFl lhs (r :: rhs)
      else if isTabOrNewline r then iiequalsFl (l :: lhs) rhs
      else false
termination_by lhs rhs => lhs.length + rhs.length

def localhost : List Char := ['l', 'o', 'c', 'a', 'l', 'h', 'o', 's', 't']

/-- Whether the host is `localhost`. -/
def isLocalhost (O : Output σ) (out : σ) : Bool :=
  if O.isSegregated then
    match O.segments .host out with
    | [segment] => iiequalsFl localhost segment
    | _ => false
  else iiequalsFl localhost (O.view .host out)

/-- The options of the host of a file. -/
def fileHostOptions (o : Options) : Options :=
  { o with parseCredentails := false, emptyHostIsError := false, parsePort := false }

def parseFileHost (o : Options) (O : Output σ) (ctx : Ctx σ) : Run (Ctx σ) :=
  if o.handleWindowsDriveLetters && startsWithWindowsDriverLetter o ctx.pos then do
    let pos ← backToSlash (slice ctx.beg ctx.pos).reverse ctx.pos
    pure (({ ctx with pos := pos }.setWarning .windowsDriveLetterAsHost).setValid .validPath)
  else do
    let ctx ← parseAuthorityPieces (fileHostOptions o) O true ctx
    let out := if O.hasValue .host ctx.out && isLocalhost O ctx.out then O.clear .host ctx.out
      else ctx.out
    let ctx := { ctx with out := out }
    pure (if o.handleWindowsDriveLetters && startsWithWindowsDriverLetter o ctx.pos then
      ctx.setWarning .windowsDriveLetterAsHost else ctx)

/-! ## `parse_authority` -/

/-- The loop of `parse_authority_end` of a special URI. -/
def authorityEndSpecial (o : Options) : List Char → Ctx σ → Run (Ctx σ)
  | [], _ => .error .readPastEnd
  | c :: pos, ctx =>
      if isTabOrNewline c ∧ o.ignoreTabsOrNewlines then
        authorityEndSpecial o pos (ctx.setWarning .invalidCharacter)
      else
        let ctx := { ctx with pos := c :: pos }
        let ctx := if c = '\\' then ctx.setWarning .reverseSolidusUsed else ctx
        pure (ctx.setValid .validPath)

/-- The loop of `parse_authority_end` of any other URI. -/
def authorityEndOther (o : Options) (O : Output σ) : List Char → Ctx σ → Run (Ctx σ)
  | [], _ => .error .readPastEnd
  | c :: pos, ctx =>
      let leave (parse : Bool) (value : UriStatus) (comp : Components) : Ctx σ :=
        if parse then { ctx with pos := pos, out := O.clear comp ctx.out }.setValid value
        else { ctx with pos := c :: pos }.setWarning .invalidCharacter
      if c = '?' then pure (leave o.parseQueries .validQueries .queries)
      else if c = '#' then pure (leave o.parseFragment .validFragment .fragment)
      else if isTabOrNewline c ∧ o.ignoreTabsOrNewlines then
        authorityEndOther o O pos (ctx.setWarning .invalidCharacter)
      else pure ({ ctx with pos := c :: pos, out := O.clear .path ctx.out }.setValid .validPath)

def parseAuthorityEnd (o : Options) (O : Output σ) (ctx : Ctx σ) : Run (Ctx σ) :=
  if ctx.pos = [] then pure (ctx.setValid .valid)
  else if isSpecialScheme ctx.scheme then authorityEndSpecial o ctx.pos ctx
  else authorityEndOther o O ctx.pos ctx

/-- The loop of `parse_authority` before the host: `true` goes on to the pieces. -/
def authorityStart (o : Options) : List Char → Ctx σ → Run (Bool × Ctx σ)
  | [], _ => .error .readPastEnd
  | c :: pos, ctx =>
      let ctx' := { ctx with pos := c :: pos }
      let missing : Bool × Ctx σ :=
        (false, if o.emptyHostIsError then ctx'.setError .hostMissing else ctx'.setValid .valid)
      if c = ':' then pure (if o.parseCredentails then (true, ctx') else missing)
      else if c = '\x00' then pure (if o.eofIsValid then (true, ctx') else missing)
      else if c = '?' ∧ !isSpecialScheme ctx.scheme then pure (true, ctx')
      else if c = '?' ∨ c = '\\' ∨ c = '/' ∨ c = '#' then
        if o.emptyHostIsError then
          if isSpecialScheme ctx.scheme then pure (false, ctx'.setError .hostMissing)
          else pure (true, ctx'.setValid .valid)
        else pure (false, ctx'.setValid .valid)
      else if isTabOrNewline c ∧ o.ignoreTabsOrNewlines then
        authorityStart o pos (ctx.setWarning .invalidCharacter)
      else pure (true, ctx')

def parseAuthority (o : Options) (O : Output σ) (ctx : Ctx σ) : Run (Ctx σ) :=
  if ctx.pos = [] then
    pure (if o.emptyHostIsError then ctx.setError .hostMissing else ctx.setValid .valid)
  else if o.allowFileHosts && isFileScheme ctx.scheme then
    -- the options of the caller are not passed on
    parseFileHost standardUriParsingOptions O ctx
  else do
    let r ← authorityStart o ctx.pos ctx
    if r.1 then parseAuthorityPieces o O (isSpecialScheme r.2.scheme) r.2
    else pure r.2

end Webpp.Uri
