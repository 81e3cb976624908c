import Webpp.Uri.Encoder

/-!
# Paths

`parse_path` of a special URI, `parse_opaque_path` of the others, and the treatment of
dot segments and of Windows drive letters. A modifiable text gets the path written
segment by segment; a dot segment is written too and then taken back.
-/

namespace Webpp.Uri

open ComponentEncoder Loop

variable {σ : Type}

/-! ## Dot segments -/

/-- How far the search for the last slash goes back, on the reversed text. -/
def slashScan : List Char → ℕ
  | [] => 0
  | [_] => 0
  | c :: rest => if c = '/' then 0 else slashScan rest + 1

/-- What is left of a path after `pop_back_segment`. The last character is not looked at,
and the first is never removed. -/
def popBackText (out : List Char) : List Char :=
  match out.reverse with
  | [] => []
  | [c] => [c]
  | _ :: rest => out.take (out.length - (slashScan rest + 1))

/-- `pop_back` of a vector of strings; with two segments it does nothing. -/
def popBackSegments (segments : List (List Char)) : List (List Char) :=
  if 2 < segments.length then segments.dropLast
  else if segments.length = 1 then [[]] else segments

/-- `pop_back` of a vector of string views, which has a segment. -/
def popBackViews (segments : List (List Char)) : List (List Char) :=
  if 1 < segments.length then segments.dropLast else segments.dropLast ++ [[]]

def popBackSegment (O : Output σ) (e : ComponentEncoder σ) : Run (ComponentEncoder σ) :=
  if O.isSegregated then
    if O.isModifiable then
      pure (e.setOut (O.editSegments .path popBackSegments e.ctx.out))
    else
      pure (resetSegmentStart O .path (e.setOut (O.editSegments .path popBackViews e.ctx.out)))
  else if O.isModifiable then do
    let out ← O.edit .path (fun out => pure (popBackText out)) e.ctx.out
    pure (e.setOut out)
  else pure e

/-- `out.erase(out.size() - length)`. -/
def eraseLast (length : ℕ) (out : List Char) : Run (List Char) :=
  if length ≤ out.length then pure (out.take (out.length - length)) else .error .outOfRange

def clearSegment (o : Options) (O : Output σ) (e : ComponentEncoder σ) :
    Run (ComponentEncoder σ) := do
  let e ←
    if O.isSegregated && O.isModifiable then do
      let out ← O.edit .path (fun _ => pure []) e.ctx.out
      pure (e.setOut out)
    else if O.isModifiable && !O.isSegregated then
      if o.ignoreTabsOrNewlines then popBackSegment O e
      else do
        let length := e.beg.length - e.ctx.pos.length
        let out ← O.edit .path (eraseLast length) e.ctx.out
        pure (e.setOut out)
    else pure e
  pure (resetSegmentStart O .path e)

/-- The loop of `handle_dots_in_paths`: the number of dots, as a byte, of a segment made
of the characters of dots and of their escapes. -/
def countDots (o : Options) : List Char → Char → UInt8 → Option UInt8
  | [], _, dots => some dots
  | c :: pos, prev, dots =>
      if c = '%' then if prev ≠ '\x00' then none else countDots o pos '%' dots
      else if c = '2' then if prev ≠ '%' then none else countDots o pos '2' dots
      else if c = 'e' ∨ c = 'E' then
        if prev ≠ '2' then none else countDots o pos '\x00' (dots + 1)
      else if c = '.' then countDots o pos prev (dots + 1)
      else if isTabOrNewline c ∧ o.ignoreTabsOrNewlines then countDots o pos prev dots
      else none

/-- `handle_dots_in_paths`: one dot takes the segment back, two dots also the segment
before it. -/
def handleDotsInPaths (o : Options) (O : Output σ) (e : ComponentEncoder σ) :
    Run (Bool × ComponentEncoder σ) :=
  if o.handleDotsInPaths then
    match countDots o (slice e.beg e.ctx.pos) '\x00' 0 with
    | some 1 => do
        let e ← clearSegment o O e
        pure (true, e)
    | some 2 => do
        let e ← popBackSegment O e
        let e ← clearSegment o O e
        pure (true, e)
    | _ => pure (false, e)
  else pure (false, e)

/-! ## Windows drive letters -/

/-- `has_windows_driver_letter` of two characters. -/
def hasWindowsDriverLetter (c c' : Char) : Bool :=
  asciiAlpha.contains c && (c' == ':' || c' == '|')

/-- The iterator one before `pos`. -/
def retreat (beg pos : List Char) : Run (List Char) :=
  if pos.length < beg.length then .ok (beg.drop (beg.length - pos.length - 1))
  else .error .moveBeforeBegin

/-- The loop that collects up to three characters behind the leading slashes: the
characters and the position behind them, and the context with its warnings. `none` is
the early return at a tab that is not ignored. -/
def driveLetters (o : Options) : List Char → List Char → Ctx σ →
    Option (List Char × List Char) × Ctx σ
  | [], letters, ctx => (some (letters, []), ctx)
  | c :: pos, letters, ctx =>
      if letters.length = 3 then (some (letters, c :: pos), ctx)
      else if isTabOrNewline c then
        if o.ignoreTabsOrNewlines then
          driveLetters o pos letters (ctx.setWarning .invalidCharacter)
        else (none, ctx)
      else
        let ctx := if c = '\\' then ctx.setWarning .reverseSolidusUsed else ctx
        if (c = '\\' ∨ c = '/') ∧ letters = [] then driveLetters o pos letters ctx
        else driveLetters o pos (letters ++ [c]) ctx

/-- The part of `handle_windows_driver_letter` that stores the drive letter. -/
def storeDriveLetter (O : Output σ) (letter third : Char) (pos : List Char)
    (e : ComponentEncoder σ) : Run (ComponentEncoder σ) := do
  let e ← nextSegment O .path (e.setWarning .windowsDriveLetterUsed)
  let e ← appendInplaceOf O .path letter e
  let e ← appendInplaceOf O .path ':' e
  -- `ignore_character(pos - ctx.pos - 1)`
  let before ← retreat e.ctx.beg pos
  let e := e.setPos before
  if third = '/' then
    if O.isSegregated then nextSegment O .path e
    else do
      let e ← appendInplaceOf O .path '/' e
      nextSegment O .path e 0
  else pure (endSegment O .path e)

def handleWindowsDriverLetter (o : Options) (O : Output σ) (e : ComponentEncoder σ) :
    Run (ComponentEncoder σ) :=
  if o.handleWindowsDriveLetters && isFileScheme e.ctx.scheme then
    match e.ctx.pos with
    | [] => pure e
    | [_] => pure e
    | [c, c'] =>
        if hasWindowsDriverLetter c c' then storeDriveLetter O c '\x00' [] e else pure e
    | _ =>
        let r := driveLetters o e.ctx.pos [] e.ctx
        let e := { e with ctx := r.2 }
        match r.1 with
        | none => pure e
        | some (letters, pos) =>
            let letter (i : ℕ) := letters.getD i '\x00'
            if hasWindowsDriverLetter (letter 0) (letter 1) then
              if letter 2 = '/' ∨ letter 2 = '\\' then
                storeDriveLetter O (letter 0) '/' pos e
              else if letter 2 = '?' ∨ letter 2 = '#' then do
                let pos ← retreat e.ctx.beg pos
                storeDriveLetter O (letter 0) (letter 2) pos e
              else pure e
            else pure e
  else pure e

/-! ## Opaque paths -/

def opaquePathInteresting : AsciiBitmap :=
  asciiBitmap ['\x00', '%', '#', '?', '\r', '\t', '\n']

/-- One round of the loop of `parse_opaque_path`. -/
def opaquePathStep (o : Options) (O : Output σ) (e : ComponentEncoder σ) :
    Run (Flow (ComponentEncoder σ) (ComponentEncoder σ)) := do
  let r := encodeOrValidate O .path c0ControlEncodeSet opaquePathInteresting e
  let e := r.2
  -- the `default` of the switch
  let skip (e : ComponentEncoder σ) : Run (Flow (ComponentEncoder σ) (ComponentEncoder σ)) := do
    let e ← e.ignoreCharacter
    pure (.next (e.setWarning .invalidCharacter))
  let clear (comp : Components) (e : ComponentEncoder σ) : ComponentEncoder σ :=
    e.setOut (O.clear comp e.ctx.out)
  let leave (e : ComponentEncoder σ) : Run (Flow (ComponentEncoder σ) (ComponentEncoder σ)) := do
    let e ← (setValue O .path (endSegment O .path e)).ignoreCharacter
    pure (.done e)
  if r.1 then pure (.done (setValue O .path (endSegment O .path (e.setValid .valid))))
  else do
    let c ← deref e.ctx.pos
    match c with
    | '\x00' => if o.eofIsValid then leave (e.setValid .valid) else skip e
    | '?' => leave ((clear .queries e).setValid .validQueries)
    | '#' => leave ((clear .fragment e).setValid .validFragment)
    | '%' => do
        let r ← validatePercentEncode O .path o.ignoreTabsOrNewlines e
        if r.1 then pure (.next r.2) else skip r.2
    | _ => skip e

def parseOpaquePath (o : Options) (O : Output σ) (ctx : Ctx σ) : Run (Ctx σ) := do
  let e ← loop (opaquePathStep o O) .diverges (ctx.pos.length + 1)
    (startSegment O .path (ofCtx ctx))
  pure e.ctx

/-! ## Paths of special URIs -/

def pathInteresting (O : Output σ) : AsciiBitmap :=
  let stops := asciiBitmap ['\\', '\x00', '/', '?', '#', '%', '\r', '\n', '\t']
  if O.isModifiable || O.isSegregated then pathEncodeSet.union stops else stops

/-- A slash of either kind. -/
def pathSlash (o : Options) (O : Output σ) (e : ComponentEncoder σ) :
    Run (Flow (ComponentEncoder σ) (ComponentEncoder σ)) := do
  let r ← handleDotsInPaths o O e
  if r.1 then do
    let e ← r.2.ignoreCharacter
    pure (.next (resetSegmentStart O .path e))
  else do
    let e ← nextSegmentOf O .path '/' r.2
    pure (.next e)

/-- The switch of `parse_path`. -/
def pathSwitch (o : Options) (O : Output σ) (e : ComponentEncoder σ) (c : Char) :
    Run (Flow (ComponentEncoder σ) (ComponentEncoder σ)) :=
  match c with
  | '\\' => pathSlash o O (e.setWarning .reverseSolidusUsed)
  | '/' => pathSlash o O e
  | '?' => pure (.done (e.setValid .validQueries))
  | '#' => pure (.done (e.setValid .validFragment))
  | '%' => do
      let r ← validatePercentEncode O .path o.ignoreTabsOrNewlines e
      pure (.next (if r.1 then r.2 else r.2.setWarning .invalidCharacter))
  | '\r' | '\n' | '\t' =>
      let e := e.setWarning .invalidCharacter
      if o.ignoreTabsOrNewlines then do
        let e ← e.ignoreCharacter
        pure (.next e)
      else pure (.done e)
  | '\x00' => pure (.done (if o.eofIsValid then e else e.setWarning .invalidCharacter))
  | _ => pure (.done (e.setWarning .invalidCharacter))

/-- One round of the loop of `parse_path`. -/
def pathStep (o : Options) (O : Output σ) (e : ComponentEncoder σ) :
    Run (Flow (ComponentEncoder σ) (ComponentEncoder σ)) := do
  let r := encodeOrValidate O .path pathEncodeSet (pathInteresting O) e
  if r.1 then pure (.done r.2)
  else do
    let c ← deref r.2.ctx.pos
    pathSwitch o O r.2 c

/-- What follows the loop of `parse_path`. An end character other than a `\0` is passed
over; the path of a special URI is never empty. -/
def pathEnd (o : Options) (O : Output σ) (e : ComponentEncoder σ) : Run (Ctx σ) := do
  let r ← handleDotsInPaths o O e
  let e := setValue O .path (endSegment O .path r.2)
  if o.eofIsValid && !e.ctx.pos.isEmpty && e.ctx.pos.head? != some '\x00' then do
    let e ← e.ignoreCharacter
    pure e.ctx
  else do
    let e ←
      if O.isModifiable && !O.isSegregated && isSpecialScheme e.ctx.scheme &&
          !O.hasValue .path e.ctx.out then
        nextSegmentOf O .path '/' e 0
      else pure e
    pure (e.setValid .valid).ctx

def parsePath (o : Options) (O : Output σ) (ctx : Ctx σ) : Run (Ctx σ) :=
  if isSpecialScheme ctx.scheme then do
    let e ← handleWindowsDriverLetter o O (startSegment O .path (ofCtx ctx))
    let e ← loop (pathStep o O) .diverges (e.ctx.pos.length + 1) e
    pathEnd o O e
  else parseOpaquePath o O ctx

end Webpp.Uri
