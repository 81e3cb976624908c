import Webpp.Uri.Host

/-!
# Schemes

`parse_scheme` in a context without a base URI: the name up to the colon, which decides
on the kind of the scheme, and the slashes behind it.
-/

namespace Webpp.Uri

open ComponentEncoder

variable {σ : Type}

/-! ## Names of schemes -/

/-- The code of a name: its characters are shifted through 64 bits. -/
def schemeCode (name : List Char) : ℕ :=
  name.foldl (fun code c => ((code ||| c.toNat) <<< 8) % 2 ^ 64) 0

/-- `known_port`, 0 where no port is known. -/
def knownPort (scheme : List Char) : ℕ :=
  let code := schemeCode ((scheme.filter fun c => !isTabOrNewline c).map toLowerCopy)
  if code = schemeCode ['h', 't', 't', 'p'] ∨ code = schemeCode ['w', 's'] then 80
  else if code = schemeCode ['h', 't', 't', 'p', 's'] ∨ code = schemeCode ['w', 's', 's'] then 443
  else if code = schemeCode ['f', 't', 'p'] then 21
  else 0

/-! ## Moving over slashes -/

/-- The loop of `safely_inc_if` that ignores tabs and newlines. It needs a character
behind the values, and it moves over what it has matched also when it fails. -/
def safelyIncIfLoop : (vals pos : List Char) → Ctx σ → Bool × Ctx σ
  | _, [], ctx => (false, { ctx with pos := [] })
  | vals, c :: pos, ctx =>
      match vals with
      | [] => (true, { ctx with pos := c :: pos })
      | val :: rest =>
          if isTabOrNewline c then safelyIncIfLoop vals pos (ctx.setWarning .invalidCharacter)
          else if c ≠ val then (false, { ctx with pos := c :: pos })
          else safelyIncIfLoop rest pos ctx

/-- `safely_inc_if(ctx, vals...)`. -/
def safelyIncIf (o : Options) (vals : List Char) (ctx : Ctx σ) : Bool × Ctx σ :=
  if o.ignoreTabsOrNewlines then safelyIncIfLoop vals ctx.pos ctx
  else if vals.isPrefixOf ctx.pos then
    (true, { ctx with pos := ctx.pos.drop vals.length })
  else (false, ctx)

/-! ## The states behind the colon -/

def noSchemeState (ctx : Ctx σ) : Ctx σ := ctx.setError .missingSchemeNonRelativeUrl

/-- The loop of `special_authority_ignore_slashes_state`. -/
def ignoreSlashes (o : Options) : List Char → Ctx σ → Ctx σ
  | [], ctx => { ctx with pos := [] }.setValid .validAuthority
  | c :: pos, ctx =>
      if c = '\\' ∨ c = '/' then ignoreSlashes o pos (ctx.setWarning .missingFollowingSolidus)
      else if c = '\x00' ∧ o.eofIsValid then
        { ctx with pos := c :: pos }.setError .schemeEndedUnexpectedly
      else if isTabOrNewline c ∧ o.ignoreTabsOrNewlines then
        ignoreSlashes o pos (ctx.setWarning .invalidCharacter)
      else { ctx with pos := c :: pos }.setValid .validAuthority

def specialAuthorityIgnoreSlashesState (o : Options) (ctx : Ctx σ) : Ctx σ :=
  ignoreSlashes o ctx.pos ctx

def fileSlashState (o : Options) (ctx : Ctx σ) : Ctx σ :=
  match ctx.pos with
  | [] => ctx.setValid .validPath
  | c :: _ =>
      let ctx := if c = '\\' then ctx.setWarning .reverseSolidusUsed else ctx
      if c = '\\' ∨ c = '/' then
        ctx.setValid (if o.allowFileHosts then .validFileHost else .validPath)
      else if isTabOrNewline c ∧ o.ignoreTabsOrNewlines then
        (ctx.setWarning .invalidCharacter).setValid .validPath
      else ctx.setValid .validPath

/-- The loop of `file_state`. -/
def fileStateLoop (o : Options) : List Char → Ctx σ → Ctx σ
  | [], ctx => { ctx with pos := [] }.setValid .valid
  | c :: pos, ctx =>
      let found (ctx : Ctx σ) : Ctx σ :=
        { ctx with pos := c :: pos }.setValid
          (if o.allowFileHosts then .validFileHost else .validPath)
      if c = '\\' then
        fileSlashState o ({ ctx with pos := c :: pos }.setWarning .reverseSolidusUsed)
      else if c = '/' then fileSlashState o { ctx with pos := c :: pos }
      else if c = '\x00' then
        if o.eofIsValid then { ctx with pos := c :: pos }.setValid .valid
        else found (ctx.setWarning .invalidCharacter)
      else if isTabOrNewline c ∧ o.ignoreTabsOrNewlines then
        fileStateLoop o pos (ctx.setWarning .invalidCharacter)
      else found ctx

def fileState (o : Options) (O : Output σ) (ctx : Ctx σ) : Ctx σ :=
  fileStateLoop o ctx.pos { ctx with out := O.clear .host ctx.out }

/-! ## `parse_scheme` -/

/-- `set_scheme(ctx, scheme)`, for the names that are known. -/
def setScheme (O : Output σ) (scheme : List Char) (ctx : Ctx σ) : Ctx σ :=
  if O.isModifiable then { ctx with out := O.setValue .scheme scheme [] ctx.out }
  else { ctx with out := O.setValue .scheme ctx.beg ctx.pos ctx.out }

/-- `set_scheme<Options>(ctx)`, for all other names. -/
def setSchemeLower (o : Options) (O : Output σ) (ctx : Ctx σ) : Ctx σ :=
  if O.isModifiable then
    let name := slice ctx.beg ctx.pos
    let name := if o.ignoreTabsOrNewlines then name.filter fun c => !isTabOrNewline c else name
    { ctx with out := O.setValue .scheme (name.map toLowerCopy) [] ctx.out }
  else { ctx with out := O.setValue .scheme ctx.beg ctx.pos ctx.out }

def schemeChars : AsciiBitmap := alphaDigit.union (asciiBitmap ['+', '-', '.'])

/-- The position of the first letter, behind ignored tabs and newlines; `none` is a
character that begins no scheme. -/
def schemeStart (o : Options) (ctx : Ctx σ) : Run (Option (List Char) × Ctx σ) := do
  let c ← deref ctx.pos
  if asciiAlpha.contains c then pure (some ctx.pos, ctx)
  else if o.ignoreTabsOrNewlines && isTabOrNewline c then do
    let pos := ctx.pos.dropWhile isTabOrNewline
    let ctx := { ctx with pos := pos }.setWarning .invalidCharacter
    let c ← deref pos
    pure (if asciiAlpha.contains c then some pos else none, ctx)
  else pure (none, ctx)

/-- The loop over the characters of the scheme: its name and the context with the
position at the colon. `none` is an error. -/
def schemeLoop (o : Options) : (pos name : List Char) → Ctx σ → Option (List Char) × Ctx σ
  | [], _, ctx => (none, { ctx with pos := [] }.setError .schemeEndedUnexpectedly)
  | c :: pos, name, ctx =>
      let error (value : UriStatus) : Option (List Char) × Ctx σ :=
        (none, { ctx with pos := c :: pos }.setError value)
      if c = ':' then (some name, { ctx with pos := c :: pos })
      else if c = '\x00' then
        error (if o.eofIsValid then .schemeEndedUnexpectedly else .invalidSchemeCharacter)
      else if isTabOrNewline c ∧ o.ignoreTabsOrNewlines then
        schemeLoop o pos name (ctx.setWarning .invalidCharacter)
      else if !schemeChars.contains c then error .invalidSchemeCharacter
      else schemeLoop o pos (name ++ [toLowerCopy c]) ctx

/-- What follows `file:`. -/
def afterFileScheme (o : Options) (O : Output σ) (ctx : Ctx σ) : Ctx σ :=
  let r := safelyIncIf o ['/', '/'] { ctx with scheme := .file }
  fileState o O (if r.1 then r.2 else r.2.setWarning .missingFollowingSolidus)

/-- What follows the colon of a scheme that is not special. -/
def afterOtherScheme (o : Options) (O : Output σ) (ctx : Ctx σ) : Ctx σ :=
  let r := safelyIncIf o ['/'] { ctx with scheme := .notSpecial }
  if r.1 then
    let r := safelyIncIf o ['/'] r.2
    if r.1 then r.2.setValid .validAuthority else r.2.setValid .validPath
  else { r.2 with out := O.clear .path r.2.out }.setValid .validOpaquePath

/-- What follows the colon of a special scheme that is no file's. -/
def afterSpecialScheme (o : Options) (ctx : Ctx σ) : Ctx σ :=
  let r := safelyIncIf o ['/', '/'] { ctx with scheme := .specialScheme }
  specialAuthorityIgnoreSlashesState o
    (if r.1 then r.2 else r.2.setWarning .missingFollowingSolidus)

def specialSchemes : List (List Char) :=
  [['h', 't', 't', 'p'], ['h', 't', 't', 'p', 's'], ['w', 's'], ['w', 's', 's'], ['f', 't', 'p']]

/-- The switch over the code of the name, with the position at the colon. -/
def schemeSwitch (o : Options) (O : Output σ) (name : List Char) (ctx : Ctx σ) :
    Run (Ctx σ) := do
  let pos ← advance ctx.pos 1
  let code := schemeCode name
  match specialSchemes.find? fun scheme => schemeCode scheme == code with
  | some scheme => pure (afterSpecialScheme o { setScheme O scheme ctx with pos := pos })
  | none =>
      if code = schemeCode ['f', 'i', 'l', 'e'] then
        pure (afterFileScheme o O { setScheme O ['f', 'i', 'l', 'e'] ctx with pos := pos })
      else pure (afterOtherScheme o O { setSchemeLower o O ctx with pos := pos })

def parseScheme (o : Options) (O : Output σ) (ctx : Ctx σ) : Run (Ctx σ) :=
  if ctx.pos = [] then pure (ctx.setError .emptyString)
  else do
    let r ← schemeStart o ctx
    match r.1 with
    | none =>
        pure (noSchemeState { r.2 with pos := r.2.beg, out := O.clear .scheme r.2.out })
    | some pos => do
        let c ← deref pos
        let r := schemeLoop o pos.tail [toLowerCopy c] r.2
        match r.1 with
        | none => pure r.2
        | some name => schemeSwitch o O name r.2

end Webpp.Uri
