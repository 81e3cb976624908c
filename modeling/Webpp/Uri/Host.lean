import Webpp.Ip.InetPton6
import Webpp.Uri.Encoder

/-!
# Hosts

The decoding of domain names, and the two parsers of addresses that
`parse_authority_pieces` calls: `parse_host_ipv4` on the text of a host that ends in a
number, and `parse_host_ipv6` at a `[`.
-/

namespace Webpp.Uri

open ComponentEncoder Loop Webpp.Text

variable {σ : Type}

/-! ## Decoding -/

/-- The character of two digits behind a `%`. A first one that is no digit sets the high
bits; only `none` is refused. -/
def decodedChar (c1 c2 : Char) : Option Char :=
  match hexDigitSafe c1, hexDigitSafe c2 with
  | _, none => none
  | some d, some v => some (Char.ofNat (16 * d + v))
  | none, some v => if v = 15 then none else some (Char.ofNat (0xF0 + v))

/-- `decode_uri_component` with the policy `encode_chars`: what is written, where it
stops, and whether that is the end. -/
def decodeUriComponent (chars : AsciiBitmap) : List Char → List Char × List Char × Bool
  | [] => ([], [], true)
  | c :: pos =>
      if c = '%' then
        match pos with
        | c1 :: c2 :: rest =>
            match decodedChar c1 c2 with
            | some d =>
                let r := decodeUriComponent chars rest
                (d :: r.1, r.2)
            | none => ([], c2 :: rest, false)
        | pos => ([], pos, false)
      else if chars.contains c then ([], c :: pos, false)
      else
        let r := decodeUriComponent chars pos
        (c :: r.1, r.2)

def toLowerCopy (c : Char) : Char := if upperAlpha c then Char.ofNat (c.toNat + 32) else c

/-- One round of the loop of `decode_or_tolower`, on what is written and the position. -/
def tolowerStep (chars : AsciiBitmap) (s : List Char × List Char) :
    Run (Flow (List Char × List Char) (List Char × List Char × Bool)) :=
  if s.2 = [] then pure (.done (s.1, [], true))
  else
    let r := decodeUriComponent chars s.2
    if r.2.2 then pure (.done (s.1 ++ r.1, r.2.1, true))
    else do
      let c ← deref r.2.1
      if upperAlpha c then pure (.next (s.1 ++ r.1 ++ [toLowerCopy c], r.2.1.tail))
      else pure (.done (s.1 ++ r.1, r.2.1, false))

def decodeOrTolower (O : Output σ) (comp : Components) (policyChars : AsciiBitmap)
    (e : ComponentEncoder σ) : Run (Bool × ComponentEncoder σ) :=
  if O.isModifiable then do
    let r ← loop (tolowerStep policyChars) .diverges (e.ctx.pos.length + 1) ([], e.ctx.pos)
    pure (r.2.2, (appendTo O comp r.1 e).setPos r.2.1)
  else
    let pos := policyChars.findFirstIn e.ctx.pos
    pure (pos.isEmpty, e.setPos pos)

/-! ## IPv4 hosts -/

/-- The dots at the end of a host, read backwards from `fin`: the text from the head back
is `*fin` and what is before it, `start` the number of characters before the host. -/
def pruneDots (o : Options) (start : ℕ) :
    List Char → Ctx σ → Run (Option (List Char) × Ctx σ)
  | [], _ => .error .moveBeforeBegin
  | c :: before, ctx =>
      if c = '.' then
        let ctx := ctx.setWarning .ipv4TrailingEmptyOctet
        if before.length = start + 1 then pure (none, ctx)
        else if o.allowMultipleTrailingEmptyIpv4Octets then pruneDots o start before ctx
        else pure (some before, ctx)
      else pure (some (c :: before), ctx)

/-- The loop of `is_possible_ends_with_ipv4`, backwards over the last octet. -/
def endsWithOctet (start : ℕ) : List Char → (mustBeHex : Bool) → Run Bool
  | [], _ => .error .moveBeforeBegin
  | c :: before, mustBeHex =>
      if before.length = start then pure !mustBeHex
      else if c = '.' then pure !mustBeHex
      else if isDigit c then endsWithOctet start before mustBeHex
      else if c = 'X' ∨ c = 'x' then
        if before.length < start + 1 then pure false
        else
          match before with
          | '0' :: before =>
              if before.length = start then pure true
              else do
                let c ← deref before
                pure (c == '.')
          | _ => pure false
      else if isHexDigit c then endsWithOctet start before true
      else pure false

/-- `is_possible_ends_with_ipv4(host_begin, pos - 1)`. -/
def isPossibleEndsWithIpv4 (o : Options) (hostBegin : List Char) (ctx : Ctx σ) :
    Run (Bool × Ctx σ) := do
  let start := ctx.beg.length - hostBegin.length
  let r ← pruneDots o start (slice ctx.beg ctx.pos).reverse ctx
  match r.1 with
  | none => pure (false, r.2)
  | some before => do
      let found ← endsWithOctet start before false
      pure (found, r.2)

/-- One more than the greatest 32-bit number. -/
def invalidNum : ℕ := 2 ^ 32

/-- The loop over one octet: its value and what follows it and its dot. `none` is an
invalid character or a value out of range. -/
def readOctet (o : Options) (base : ℕ) : ℕ → List Char → Option (ℕ × List Char)
  | octet, [] => some (octet, [])
  | octet, c :: src =>
      let digit :=
        if o.allowIpv4HexOctets && base == 16 then (hexDigitSafe c).getD invalidNum
        else if isDigit c then digitValue c else invalidNum
      if octet * base + digit ≥ invalidNum then
        if c = '.' then some (octet, src) else none
      else readOctet o base (octet * base + digit) src

/-- The base of an octet, and the octet without its prefix. -/
def octetBase (o : Options) (src : List Char) : ℕ × List Char :=
  match src with
  | '0' :: rest =>
      let base := if o.allowIpv4OctalOctets then 8 else 10
      if o.allowIpv4HexOctets then
        match rest with
        | c :: digits => if c = 'x' ∨ c = 'X' then (16, digits) else (base, rest)
        | [] => (base, [])
      else (base, src)
  | _ => (10, src)

/-- The variables of `parse_host_ipv4`; the octets that are stored are written to `out`. -/
structure HostIpv4State (σ : Type) where
  src : List Char
  stored : List ℕ
  octet : ℕ
  ctx : Ctx σ

/-- One round of the loop of `parse_host_ipv4`; `none` is a return with an error. -/
def hostIpv4Step (o : Options) (s : HostIpv4State σ) :
    Run (Flow (HostIpv4State σ) (Option (HostIpv4State σ) × Ctx σ)) := do
  let _ ← deref s.src
  let b := octetBase o s.src
  match readOctet o b.1 0 b.2 with
  | none => pure (.done (none, s.ctx.setError .ipInvalidCharacter))
  | some (octet, src) =>
      let ctx :=
        if (o.allowIpv4HexOctets || o.allowIpv4OctalOctets) && b.1 != 10 && octet != 0 then
          s.ctx.setWarning .ipv4NonDecimalOctet
        else s.ctx
      let s := { s with src := src, octet := octet, ctx := ctx }
      if src = [] then pure (.done (some s, ctx))
      -- `--src`: what the octet ended with was a dot too
      else if src.head? = some '.' then pure (.done (some { s with src := '.' :: src }, ctx))
      else if octet > 255 then pure (.done (none, ctx.setError .ipInvalidOctetRange))
      else if s.stored.length = 4 then .error .writePastOctets
      else pure (.next { s with stored := s.stored ++ [octet] })

/-- The last octet fills `count` octets; the result is what is left of it. -/
def fillOctets : (count octet : ℕ) → List ℕ × ℕ
  | 0, octet => ([], octet)
  | count + 1, octet =>
      let byte := (octet >>> (count * 8)) % 256
      let r := fillOctets count (octet - byte <<< (count * 8))
      (byte :: r.1, r.2)

/-- The dots behind the last octet: the error that they are, if any. -/
def checkTrailingDots (o : Options) (src : List Char) (ctx : Ctx σ) : Bool × Ctx σ :=
  if src.head? = some '.' then
    if o.allowMultipleTrailingEmptyIpv4Octets then
      if src.all (· == '.') then (true, ctx) else (false, ctx.setError .ipInvalidCharacter)
    else if o.allowTrailingEmptyIpv4Octet && src.tail.isEmpty then
      (true, ctx.setWarning .ipv4TrailingEmptyOctet)
    else (false, ctx.setError .ipInvalidCharacter)
  else (true, ctx)

/-- What follows the loop of `parse_host_ipv4`. -/
def hostIpv4End (o : Options) (s : HostIpv4State σ) (ctx : Ctx σ) :
    Option (List ℕ) × Ctx σ :=
  let r := checkTrailingDots o s.src ctx
  if r.1 then
    if o.allowMultipleTrailingEmptyIpv4Octets || o.allowTrailingEmptyIpv4Octet then
      let filled := fillOctets (4 - s.stored.length) s.octet
      if filled.2 ≠ 0 then (none, r.2.setError .ipTooManyOctets)
      else (some (s.stored ++ filled.1), r.2)
    else if s.stored.length ≠ 4 then (none, r.2.setError .ipTooLittleOctets)
    else if s.octet ≠ 0 then (none, r.2.setError .ipTooManyOctets)
    else (some s.stored, r.2)
  else (none, r.2)

/-- `parse_host_ipv4` on the text of a host: the octets, or `none` when parsing has to
stop. -/
def parseHostIpv4 (o : Options) (host : List Char) (ctx : Ctx σ) :
    Run (Option (List ℕ) × Ctx σ) :=
  if host = [] then pure (none, ctx.setError .ipBadEnding)
  else if host.head? = some '.' then pure (hostIpv4End o ⟨host, [], 0, ctx⟩ ctx)
  else do
    let r ← loop (hostIpv4Step o) .diverges (host.length + 1) ⟨host, [], 0, ctx⟩
    match r.1 with
    | none => pure (none, r.2)
    | some s => pure (hostIpv4End o s r.2)

/-- `ipv4{octets}.to_string`. -/
def ipv4Text (octets : List ℕ) : List Char := Ip.inetNtop4 (octets.map UInt8.ofNat)

/-! ## IPv6 hosts -/

/-- What follows the `]` of a host, with the position behind it. -/
def afterIpv6 (ctx : Ctx σ) : Ctx σ :=
  match ctx.pos with
  | [] => ctx.setValid .valid
  | c :: pos =>
      match c with
      | '/' => ctx.setValid .validPath
      | ':' => { ctx.setValid .validPort with pos := pos }
      | '#' => { ctx.setValid .validFragment with pos := pos }
      | '?' => { ctx.setValid .validQueries with pos := pos }
      | _ => ctx.setError .ipv6CharAfterClosing

/-- `parse_host_ipv6` at a `[`. It never tells the caller to go on. -/
def parseHostIpv6 (O : Output σ) (ctx : Ctx σ) : Run (Ctx σ) :=
  if O.hasValue .host ctx.out then pure (ctx.setError .invalidDomainCodePoint)
  else do
    let pos ← advance ctx.pos 1
    let r := Ip.inetPton6 pos (List.replicate 16 0) ']'
    match r.status with
    | .valid => pure ({ ctx with pos := r.src }.setError .ipv6Unclosed)
    | .validSpecial => do
        let c ← deref r.src
        if c = ']' then
          let out := O.setValue .host ctx.pos r.src.tail ctx.out
          pure (afterIpv6 { ctx with pos := r.src.tail, out := out })
        else pure ({ ctx with pos := r.src }.setError .ipv6Unclosed)
    | status => pure ({ ctx with pos := r.src }.setError (.ofInetPton6 status))

end Webpp.Uri
