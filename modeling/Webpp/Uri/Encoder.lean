import Webpp.Uri.Context

/-!
# The component encoder

`component_encoder` moves the position of its context and stores what it passes:
encoded into a modifiable output, as a piece of the input otherwise. In a
segregated context the queries go into a pair of buffers first (`isMap`), and the
host and the path into the last segment (`isVec`).
-/

namespace Webpp.Uri

open Webpp.Text

/-- `component_encoder<Comp, CtxT>`; `buffer` is used for a map only. -/
structure ComponentEncoder (σ : Type) where
  ctx : Ctx σ
  beg : List Char
  buffer : List Char × List Char

namespace ComponentEncoder

variable {σ : Type} (O : Output σ) (comp : Components)

/-- The encoder of a context, whose segment begins at the position. -/
def ofCtx (ctx : Ctx σ) : ComponentEncoder σ := ⟨ctx, ctx.pos, ([], [])⟩

def isVec : Bool := O.isSegregated && comp.isVec

def isMap : Bool := O.isSegregated && comp == .queries

def isSeg : Bool := isVec O comp || isMap O comp

def setPos (e : ComponentEncoder σ) (pos : List Char) : ComponentEncoder σ :=
  { e with ctx := { e.ctx with pos := pos } }

def setOut (e : ComponentEncoder σ) (out : σ) : ComponentEncoder σ :=
  { e with ctx := { e.ctx with out := out } }

def setWarning (e : ComponentEncoder σ) (warning : UriWarning) : ComponentEncoder σ :=
  { e with ctx := e.ctx.setWarning warning }

def setValid (e : ComponentEncoder σ) (value : UriStatus) : ComponentEncoder σ :=
  { e with ctx := e.ctx.setValid value }

def setError (e : ComponentEncoder σ) (value : UriStatus) : ComponentEncoder σ :=
  { e with ctx := e.ctx.setError value }

/-- `ctx.pos += count`. -/
def ignoreCharacter (e : ComponentEncoder σ) (count : ℕ := 1) : Run (ComponentEncoder σ) := do
  let pos ← advance e.ctx.pos count
  pure (e.setPos pos)

/-- `set_value(start, end)`. -/
def setValueOf (start stop : List Char) (e : ComponentEncoder σ) : ComponentEncoder σ :=
  if !isSeg O comp && !O.isModifiable then
    e.setOut (O.setValue comp start stop e.ctx.out)
  else e

def setValue (e : ComponentEncoder σ) : ComponentEncoder σ :=
  setValueOf O comp e.beg e.ctx.pos e

/-- `append_to(get_buffer(), chars)`. -/
def appendTo (chars : List Char) (e : ComponentEncoder σ) : ComponentEncoder σ :=
  e.setOut (O.append comp chars e.ctx.out)

/-- `append_to` of the contexts that store what is passed over: not of a map. -/
def store (chars : List Char) (e : ComponentEncoder σ) : ComponentEncoder σ :=
  if O.isModifiable && !isMap O comp then appendTo O comp chars e else e

def encodeOrSet (start stop : List Char) (policyChars : AsciiBitmap)
    (e : ComponentEncoder σ) : ComponentEncoder σ :=
  if O.isModifiable then
    appendTo O comp ((slice start stop).flatMap (encodeUriChar policyChars)) e
  else setValueOf O comp start stop e

/-- The position moves to the first invalid character; the result says whether there
is none. -/
def encodeOrValidate (policyChars invalidChars : AsciiBitmap) (e : ComponentEncoder σ) :
    Bool × ComponentEncoder σ :=
  if O.isModifiable then
    let r := encodeUriComponent policyChars invalidChars e.ctx.pos
    (r.2.isEmpty, (appendTo O comp r.1 e).setPos r.2)
  else
    let pos := invalidChars.findFirstIn e.ctx.pos
    (pos.isEmpty, e.setPos pos)

def encodeOrValidateMap (policyChars invalidChars : AsciiBitmap) (inValue : Bool)
    (e : ComponentEncoder σ) : Bool × ComponentEncoder σ :=
  if O.isModifiable && isMap O comp then
    let r := encodeUriComponent policyChars invalidChars e.ctx.pos
    let buffer := if inValue then (e.buffer.1, e.buffer.2 ++ r.1)
      else (e.buffer.1 ++ r.1, e.buffer.2)
    (r.2.isEmpty, { e with buffer := buffer }.setPos r.2)
  else encodeOrValidate O comp policyChars invalidChars e

def resetBegin (e : ComponentEncoder σ) : ComponentEncoder σ := { e with beg := e.ctx.pos }

def resetSegmentStart (e : ComponentEncoder σ) : ComponentEncoder σ :=
  if isVec O comp || O.isModifiable then e.resetBegin else e

/-- `skip_separator(count)`: a modifiable text keeps the separator. -/
def skipSeparator (e : ComponentEncoder σ) (count : ℕ := 1) : Run (ComponentEncoder σ) := do
  let pos ← advance e.ctx.pos count
  let e := if O.isModifiable && !isSeg O comp then
    appendTo O comp (e.ctx.pos.take count) e else e
  pure (e.setPos pos)

def appendN (e : ComponentEncoder σ) (count : ℕ) : Run (ComponentEncoder σ) := do
  let pos ← advance e.ctx.pos count
  pure ((store O comp (e.ctx.pos.take count) e).setPos pos)

/-- `append_inplace_of(inp_char)`. -/
def appendInplaceOf (c : Char) (e : ComponentEncoder σ) : Run (ComponentEncoder σ) :=
  (store O comp [c] e).ignoreCharacter

def isTabOrNewline (c : Char) : Bool := c == '\t' || c == '\r' || c == '\n'

theorem mem_of_isTabOrNewline {c : Char} (h : isTabOrNewline c = true) :
    c ∈ ['\t', '\r', '\n'] := by
  simpa [isTabOrNewline, or_assoc] using h

/-- The two digits of an escape, with tabs and newlines between them: what is read of
them, the rest, and whether both are there. A character that is no digit is read too. -/
def percentDigits : List Char → ℕ → List Char × List Char × Bool
  | [], _ => ([], [], false)
  | c :: pos, count =>
      if isTabOrNewline c then
        if pos = [] then ([], [], false) else percentDigits pos count
      else if isHexDigit c then
        if count + 1 = 2 ∨ pos = [] then ([c], pos, count + 1 == 2)
        else
          let r := percentDigits pos (count + 1)
          (c :: r.1, r.2)
      else ([c], pos, false)

/-- The escape at the `%` of `pos`: what `validate_percent_encode` passes over, the rest,
and whether two digits follow. Characters after the `%` are passed over also where they
are no digits. -/
def percentEscape (checkNewlinesAndTabs : Bool) (pos : List Char) :
    Run (List Char × List Char × Bool) :=
  match pos with
  | [] => .error .movePastEnd
  | c :: pos =>
      if checkNewlinesAndTabs then
        let r := percentDigits pos 0
        .ok (c :: r.1, r.2)
      else
        match pos with
        | [] => .ok ([c], [], false)
        | c1 :: cur =>
            if isHexDigit c1 then do
              -- only one character behind the `%` has been checked for
              let c2 ← deref cur
              .ok ([c, c1], cur, isHexDigit c2)
            else .ok ([c, c1], cur, false)

/-- `validate_percent_encode<CheckNewlinesAndTabs>`: what the escape passes over is
stored, tabs and newlines are not. -/
def validatePercentEncode (checkNewlinesAndTabs : Bool) (e : ComponentEncoder σ) :
    Run (Bool × ComponentEncoder σ) := do
  let r ← percentEscape checkNewlinesAndTabs e.ctx.pos
  pure (r.2.2, (store O comp r.1 e).setPos r.2.1)

def startSegment (e : ComponentEncoder σ) : ComponentEncoder σ :=
  if isVec O comp && O.isModifiable then
    e.setOut (O.editSegments comp (fun segments => segments ++ [[]]) e.ctx.out)
  else e

/-- `end_segment(beg, end)`. -/
def endSegmentOf (start stop : List Char) (e : ComponentEncoder σ) : ComponentEncoder σ :=
  if isVec O comp && !O.isModifiable then
    (e.setOut (O.editSegments comp (fun segments => segments ++ [slice start stop])
      e.ctx.out)).resetBegin
  else e

def endSegment (e : ComponentEncoder σ) : ComponentEncoder σ :=
  endSegmentOf O comp e.beg e.ctx.pos e

/-- `next_segment(sep_count)`. -/
def nextSegment (e : ComponentEncoder σ) (sepCount : ℕ := 1) : Run (ComponentEncoder σ) :=
  if isSeg O comp then
    if O.isModifiable then do
      let e ← skipSeparator O comp e sepCount
      pure (startSegment O comp (resetSegmentStart O comp e))
    else do
      let e ← skipSeparator O comp (endSegment O comp e) sepCount
      pure (resetSegmentStart O comp e)
  else do
    let e ← skipSeparator O comp e sepCount
    pure (resetSegmentStart O comp (endSegment O comp e))

/-- `next_segment_of(separator, sep_count)`: a modifiable text gets the given
separator instead of the one in the input. -/
def nextSegmentOf (separator : Char) (e : ComponentEncoder σ) (sepCount : ℕ := 1) :
    Run (ComponentEncoder σ) :=
  if !isSeg O comp && O.isModifiable then do
    let e ← (appendTo O comp [separator] e).ignoreCharacter sepCount
    pure (resetSegmentStart O comp (endSegment O comp e))
  else nextSegment O comp e sepCount

def setQueryName (e : ComponentEncoder σ) : ComponentEncoder σ :=
  if O.isModifiable then e
  else { e with buffer := (slice e.beg e.ctx.pos, e.buffer.2) }

/-- `beg` moves behind the separator, at the end of the input nowhere. -/
def setQueryValue (e : ComponentEncoder σ) : ComponentEncoder σ :=
  if O.isModifiable then e
  else { e with buffer := (e.buffer.1, slice e.beg e.ctx.pos), beg := e.ctx.pos.tail }

/-- `append_query_value(1)`. -/
def appendQueryValue (e : ComponentEncoder σ) : Run (ComponentEncoder σ) :=
  if isMap O comp then do
    let c ← deref e.ctx.pos
    let pos ← advance e.ctx.pos 1
    if O.isModifiable then
      pure ({ e with buffer := (e.buffer.1, e.buffer.2 ++ [c]) }.setPos pos)
    else pure ({ e with buffer := (e.buffer.1, slice e.beg pos) }.setPos pos)
  else pure e

def nextQuery (e : ComponentEncoder σ) : ComponentEncoder σ :=
  if isMap O comp then
    let e := if e.buffer.1 ≠ [] ∨ e.buffer.2 ≠ [] then
      e.setOut (O.emplaceQuery e.buffer e.ctx.out) else e
    { e with buffer := ([], []) }.resetBegin
  else e.resetBegin

@[simp] theorem setPos_pos (e : ComponentEncoder σ) (pos : List Char) :
    (e.setPos pos).ctx.pos = pos := rfl

@[simp] theorem setPos_out (e : ComponentEncoder σ) (pos : List Char) :
    (e.setPos pos).ctx.out = e.ctx.out := rfl

@[simp] theorem setOut_pos (e : ComponentEncoder σ) (out : σ) :
    (e.setOut out).ctx.pos = e.ctx.pos := rfl

@[simp] theorem setOut_out (e : ComponentEncoder σ) (out : σ) :
    (e.setOut out).ctx.out = out := rfl

theorem percentDigits_length_le (pos : List Char) (count : ℕ) :
    (percentDigits pos count).2.1.length ≤ pos.length := by
  induction pos generalizing count with
  | nil => exact Nat.le_refl 0
  | cons c pos ih =>
      rw [percentDigits]
      split
      · split
        · exact Nat.zero_le _
        · exact Nat.le_succ_of_le (ih count)
      · split
        · split
          · exact Nat.le_succ _
          · exact Nat.le_succ_of_le (ih (count + 1))
        · exact Nat.le_succ _

/-- An escape passes over its `%` and stores it. -/
theorem percentEscape_spec {check : Bool} {c : Char} {pos : List Char}
    {r : List Char × List Char × Bool} (h : percentEscape check (c :: pos) = .ok r) :
    (∃ chars, r.1 = c :: chars) ∧ r.2.1.length ≤ pos.length := by
  cases check with
  | true =>
      simp only [percentEscape, if_true, Except.ok.injEq] at h
      cases h
      exact ⟨⟨_, rfl⟩, percentDigits_length_le pos 0⟩
  | false =>
      simp only [percentEscape, Bool.false_eq_true, if_false] at h
      cases pos with
      | nil =>
          cases h
          exact ⟨⟨_, rfl⟩, Nat.le_refl 0⟩
      | cons c1 cur =>
          cases hc1 : isHexDigit c1 with
          | false =>
              simp only [hc1, Bool.false_eq_true, if_false, Except.ok.injEq] at h
              cases h
              exact ⟨⟨_, rfl⟩, Nat.le_succ _⟩
          | true =>
              cases cur with
              | nil => simp [hc1, deref, error_bind] at h
              | cons c2 cur =>
                  simp only [hc1, if_true, deref_cons, ok_bind, Except.ok.injEq] at h
                  cases h
                  exact ⟨⟨_, rfl⟩, Nat.le_succ _⟩

end ComponentEncoder

end Webpp.Uri
