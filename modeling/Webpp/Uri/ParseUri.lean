import Webpp.Uri.Authority

/-!
# Queries, fragments and `parse_uri`

The loop of `parse_queries` ends at a `#`, where the options say so at a `\0`, and at the end of the
input; an error returns at once. The parsers are the steps of a machine: each one leaves in the status which one comes
next, until the status is `valid` or an error.
-/

namespace Webpp.Uri

open ComponentEncoder Loop

variable {σ : Type}

/-! ## Queries -/

/-- The variables of the loop of `parse_queries`. -/
structure QueriesState (σ : Type) where
  encoder : ComponentEncoder σ
  inValue : Bool

/-- How the loop of `parse_queries` ends. -/
inductive QueriesExit (σ : Type) where
  | broke (s : QueriesState σ)
  | returned (ctx : Ctx σ)

/-- The characters at which the loop stops encoding. -/
def queriesInteresting (O : Output σ) : AsciiBitmap :=
  if O.isSegregated then asciiBitmap ['#', '%', '=', '&', '\r', '\n', '\t', '\x00']
  else asciiBitmap ['#', '%', '\r', '\n', '\t', '\x00']

def queryPercentEncodeSet (scheme : SchemeType) : AsciiBitmap :=
  if isSpecialScheme scheme then specialQueriesEncodeSet else queriesEncodeSet

/-- The `default` of the switch. -/
def queriesDefault (o : Options) (O : Output σ) (s : QueriesState σ) :
    Run (Flow (QueriesState σ) (QueriesExit σ)) :=
  if o.allowInvalidCharacters then do
    let e ← skipSeparator O .queries (s.encoder.setWarning .invalidCharacter)
    pure (.next { s with encoder := e })
  else pure (.done (.returned (s.encoder.ctx.setError .invalidQueriesCharacter)))

/-- The case of a tab or a newline. -/
def queriesTab (o : Options) (O : Output σ) (s : QueriesState σ) :
    Run (Flow (QueriesState σ) (QueriesExit σ)) :=
  if o.ignoreTabsOrNewlines then do
    let e ← (s.encoder.setWarning .invalidCharacter).ignoreCharacter
    pure (.next { s with encoder := e })
  else queriesDefault o O s

/-- The switch of `parse_queries`, at an interesting character. -/
def queriesSwitch (o : Options) (O : Output σ) (s : QueriesState σ) (c : Char) :
    Run (Flow (QueriesState σ) (QueriesExit σ)) :=
  match c with
  | '#' =>
      let ctx := { s.encoder.ctx with out := O.clear .fragment s.encoder.ctx.out }
      let e := { s.encoder with ctx := ctx.setValid .validFragment }
      pure (.done (.broke { s with encoder := e }))
  | '%' => do
      let r ← validatePercentEncode O .queries o.ignoreTabsOrNewlines s.encoder
      if r.1 then pure (.next { s with encoder := r.2 })
      else if o.allowInvalidCharacters then
        pure (.next { s with encoder := r.2.setWarning .invalidCharacter })
      else pure (.done (.returned (r.2.ctx.setError .invalidQueriesCharacter)))
  | '=' =>
      if s.inValue then do
        let e ← appendQueryValue O .queries s.encoder
        pure (.next ⟨e, true⟩)
      else do
        let e := if O.isSegregated then setQueryName O s.encoder else s.encoder
        let e ← skipSeparator O .queries e
        pure (.next ⟨e.resetBegin, true⟩)
  | '&' => do
      let s := if O.isSegregated then ⟨setQueryValue O s.encoder, false⟩ else s
      let e ← skipSeparator O .queries s.encoder
      pure (.next { s with encoder := nextQuery O .queries e })
  | '\x00' =>
      if o.eofIsValid then pure (.done (.broke s)) else queriesTab o O s
  | '\r' | '\n' | '\t' => queriesTab o O s
  | _ => queriesDefault o O s

/-- One round of the loop of `parse_queries`. -/
def queriesStep (o : Options) (O : Output σ) (encodeSet : AsciiBitmap) (s : QueriesState σ) :
    Run (Flow (QueriesState σ) (QueriesExit σ)) := do
  let r := encodeOrValidateMap O .queries encodeSet (queriesInteresting O) s.inValue s.encoder
  let s := { s with encoder := r.2 }
  if r.1 then pure (.done (.broke s))
  else do
    let c ← deref s.encoder.ctx.pos
    queriesSwitch o O s c

/-- What follows the loop of `parse_queries`. -/
def queriesEnd (O : Output σ) (s : QueriesState σ) : Run (Ctx σ) := do
  let e := s.encoder
  let e := if O.isSegregated then
    if s.inValue then setQueryValue O e else setQueryName O e else e
  let e := ComponentEncoder.setValue O .queries e
  let e ← if e.ctx.pos = [] then pure (e.setValid .valid) else e.ignoreCharacter
  pure (nextQuery O .queries e).ctx

def parseQueries (o : Options) (O : Output σ) (ctx : Ctx σ) : Run (Ctx σ) :=
  if o.parseQueries then
    if ctx.pos = [] then pure (ctx.setValid .valid)
    else do
      let encodeSet := queryPercentEncodeSet ctx.scheme
      let exit ← loop (queriesStep o O encodeSet) .diverges (ctx.pos.length + 1)
        ⟨ofCtx ctx, false⟩
      match exit with
      | .broke s => queriesEnd O s
      | .returned ctx => pure ctx
  else if ctx.pos = [] then pure (ctx.setValid .valid)
  else if o.allowInvalidCharacters then pure (ctx.setWarning .invalidCharacter)
  else pure (ctx.setError .invalidQueriesCharacter)

/-! ## Fragments -/

/-- One round of the loop of `parse_fragment`. -/
def fragmentStep (o : Options) (O : Output σ) (e : ComponentEncoder σ) :
    Run (Flow (ComponentEncoder σ) (ComponentEncoder σ)) := do
  let r := encodeOrValidate O .fragment fragmentEncodeSet (asciiBitmap ['%']) e
  if r.1 then pure (.done r.2)
  else do
    let c ← deref r.2.ctx.pos
    if c = '%' then do
      let r ← validatePercentEncode O .fragment o.ignoreTabsOrNewlines r.2
      pure (.next (if r.1 then r.2 else r.2.setWarning .invalidCharacter))
    else pure (.next (r.2.setWarning .invalidCharacter))

def parseFragment (o : Options) (O : Output σ) (ctx : Ctx σ) : Run (Ctx σ) :=
  if ctx.pos = [] then pure (ctx.setValid .valid)
  else if o.parseFragment then do
    let e ← loop (fragmentStep o O) .diverges (ctx.pos.length + 1) (ofCtx ctx)
    pure ((ComponentEncoder.setValue O .fragment e).ctx.setValid .valid)
  else pure (ctx.setWarning .invalidCharacter)

/-! ## The steps -/

/-- `parse_uri_step`: the parser of the status, unless parsing is done. -/
def parseUriStep (o : Options) (O : Output σ) (ctx : Ctx σ) : Run (Flow (Ctx σ) (Ctx σ)) :=
  let goOn (x : Run (Ctx σ)) : Run (Flow (Ctx σ) (Ctx σ)) := do
    let ctx ← x
    pure (.next ctx)
  match ctx.status.value with
  | .valid | .validPunycode => pure (.done ctx)
  | .validAuthority => goOn (parseAuthority o O ctx)
  | .validFileHost =>
      if o.allowFileHosts then goOn (parseFileHost o O ctx) else .error .unreachable
  | .validPort => goOn (parsePort o O ctx)
  | .validAuthorityEnd => goOn (parseAuthorityEnd o O ctx)
  | .validOpaquePath => goOn (parseOpaquePath o O ctx)
  | .validPath => goOn (parsePath o O ctx)
  | .validQueries => goOn (parseQueries o O ctx)
  | .validFragment => goOn (parseFragment o O ctx)
  | .unparsed => goOn (parseScheme o O ctx)
  | _ => .error .unreachable

/-- One round of the loop of `continue_parsing_uri`. -/
def parseUriRound (o : Options) (O : Output σ) (ctx : Ctx σ) :
    Run (Flow (Ctx σ) (Ctx σ)) :=
  if ctx.status.hasError then pure (.done ctx) else parseUriStep o O ctx

/-- Enough rounds for every input: each parser comes once, or moves the position. -/
def uriRounds (ctx : Ctx σ) : ℕ := 8 * (ctx.beg.length + 1)

def parseUri (o : Options) (O : Output σ) (ctx : Ctx σ) : Run (Ctx σ) :=
  loop (parseUriRound o O) .diverges (uriRounds ctx) ctx

/-- The context before the text `s`, with the output `out`. -/
def startCtx (out : σ) (s : List Char) : Ctx σ := ⟨s, s, out, .start, .notSpecial⟩

end Webpp.Uri
