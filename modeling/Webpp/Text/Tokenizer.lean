import Mathlib.Data.List.TakeWhile
import Webpp.Foundation.Loop

/-!
# The state of `string_tokenizer`

A position of the tokenizer is the text from it on, so that the end is the empty text. A call of
`full_next` takes rounds of two phases: it reads a word if the last token was a delimiter, and then
it passes a delimiter. Which phase is next, is kept from call to call.
-/

namespace Webpp.Text.Tokenizer

open Loop

/-- `string_tokenizer_options` and `hidden_options` -/
structure Options where
  returnDelims : Bool
  returnEmptyTokens : Bool
  allowChars : Bool
  deriving DecidableEq

/-- `Options == 0` -/
def Options.none : Options := ⟨false, false, false⟩

def Options.delims : Options := ⟨true, false, false⟩

/-- `return_delims | return_empty_tokens` -/
def Options.delimsAndEmptyTokens : Options := ⟨true, true, false⟩

def Options.chars : Options := ⟨false, false, true⟩

structure AdvanceState where
  quoteChar : Char
  inQuote : Bool
  inEscape : Bool

def AdvanceState.initial : AdvanceState := ⟨'\x00', false, false⟩

/-- `string_tokenizer`, with the texts from `_token_begin` and `_token_end` on -/
structure StringTokenizer where
  tokenBegin : List Char
  tokenEnd : List Char
  isDelim : Bool
  deriving DecidableEq

/-- The tokenizer of a string. -/
def StringTokenizer.ofString (str : List Char) : StringTokenizer := ⟨str, str, true⟩

def StringTokenizer.token (t : StringTokenizer) : List Char :=
  t.tokenBegin.take (t.tokenBegin.length - t.tokenEnd.length)

theorem StringTokenizer.token_eq {t : StringTokenizer} {token : List Char}
    (h : t.tokenBegin = token ++ t.tokenEnd) : t.token = token := by
  simp [StringTokenizer.token, h]

def nullChar (c : Char) : Bool := c == '\x00'

/-- What ends a call without a result. -/
inductive Fault where
  | exhausted
  deriving DecidableEq

section Next

variable (o : Options) (delims quotes : Char → Bool)

/-- `advance_one`, with the state behind it -/
def advanceOne (state : AdvanceState) (inpChar : Char) : Bool × AdvanceState :=
  let hit := !o.allowChars
  if state.inQuote then
    if state.inEscape then (hit, { state with inEscape := false })
    else if inpChar = '\\' then (hit, { state with inEscape := true })
    else if inpChar = state.quoteChar then (hit, { state with inQuote := false })
    else (hit, state)
  else if delims inpChar then (!hit, state)
  else (hit, { state with quoteChar := inpChar, inQuote := quotes inpChar })

/-- The loop that slurps the characters of a token, from `_token_end` on. -/
def slurp : AdvanceState → List Char → AdvanceState × List Char
  | state, [] => (state, [])
  | state, c :: rest =>
      let advanced := advanceOne o delims quotes state c
      if advanced.1 then slurp advanced.2 rest else (advanced.2, c :: rest)

/-- The phase that looks at the delimiter. -/
def delimPhase (state : AdvanceState) (t : StringTokenizer) :
    Flow (AdvanceState × StringTokenizer) (Bool × StringTokenizer) :=
  match t.tokenEnd with
  | [] => .done (false, { t with isDelim := true, tokenBegin := [] })
  | d :: rest =>
      let t' : StringTokenizer := ⟨d :: rest, rest, true⟩
      if o.returnDelims then .done (true, t') else .next (state, t')

/-- A round of `full_next`. -/
def nextRound (s : AdvanceState × StringTokenizer) :
    Except Fault (Flow (AdvanceState × StringTokenizer) (Bool × StringTokenizer)) :=
  if s.2.isDelim then
    let slurped := slurp o delims quotes s.1 s.2.tokenEnd
    let t : StringTokenizer := ⟨s.2.tokenEnd, slurped.2, false⟩
    if o.returnEmptyTokens ∨ t.tokenBegin ≠ t.tokenEnd then .ok (.done (true, t))
    else .ok (delimPhase o slurped.1 t)
  else .ok (delimPhase o s.1 s.2)

def fullNext (t : StringTokenizer) : Except Fault (Bool × StringTokenizer) :=
  loop (nextRound o delims quotes) .exhausted (t.tokenEnd.length + 1) (.initial, t)

def quickNext (t : StringTokenizer) : Bool × StringTokenizer :=
  match t.tokenEnd.dropWhile delims with
  | [] => (false, ⟨[], t.tokenEnd, true⟩)
  | c :: rest => (true, ⟨c :: rest, rest.dropWhile fun c => !delims c, false⟩)

/-- `next(delims)` -/
def next (t : StringTokenizer) : Except Fault (Bool × StringTokenizer) :=
  if o = .none then .ok (quickNext delims t) else fullNext o delims nullChar t

/-- `next(delims, quotes)` -/
def nextQuoted (t : StringTokenizer) : Except Fault (Bool × StringTokenizer) :=
  fullNext o delims quotes t

end Next

/-! ## Calls one after the other -/

/-- The tokens of the calls from the `i`-th one on, up to the one that returns false. -/
inductive Yields (calls : ℕ → StringTokenizer → Except Fault (Bool × StringTokenizer)) :
    ℕ → StringTokenizer → List (List Char) → Prop where
  | done {i : ℕ} {t t' : StringTokenizer} (h : calls i t = .ok (false, t')) : Yields calls i t []
  | token {i : ℕ} {t t' : StringTokenizer} {tokens : List (List Char)}
      (h : calls i t = .ok (true, t')) (hrest : Yields calls (i + 1) t' tokens) :
      Yields calls i t (t'.token :: tokens)

section Yields

variable {calls : ℕ → StringTokenizer → Except Fault (Bool × StringTokenizer)} {i : ℕ}
  {t t' : StringTokenizer} {tokens tokens' : List (List Char)}

theorem Yields.unique (h : Yields calls i t tokens) (h' : Yields calls i t tokens') :
    tokens = tokens' := by
  induction h generalizing tokens' with
  | done hcall =>
      cases h' with
      | done => rfl
      | token hcall' => cases hcall.symm.trans hcall'
  | token hcall hrest ih =>
      cases h' with
      | done hcall' => cases hcall.symm.trans hcall'
      | token hcall' hrest' =>
          cases hcall.symm.trans hcall'
          rw [ih hrest']

/-- The tokens depend on the first call only, and on what is behind it. -/
theorem Yields.of_eq (h : Yields calls i t tokens) (heq : calls i t' = calls i t) :
    Yields calls i t' tokens := by
  cases h with
  | done hcall => exact .done (heq.trans hcall)
  | token hcall hrest => exact .token (heq.trans hcall) hrest

end Yields

/-! ## Characters -/

section Characters

variable {o : Options} {delims quotes : Char → Bool} {state state' : AdvanceState} {c : Char}

theorem advanceOne_delim (hout : state.inQuote = false) (hd : delims c = true) :
    advanceOne o delims quotes state c = (o.allowChars, state) := by
  simp [advanceOne, hout, hd]

theorem advanceOne_outside (hout : state.inQuote = false) (hd : delims c = false) :
    advanceOne o delims quotes state c =
      (!o.allowChars, { state with quoteChar := c, inQuote := quotes c }) := by
  simp [advanceOne, hout, hd]

theorem advanceOne_escaped (hin : state.inQuote = true) (hesc : state.inEscape = true) :
    advanceOne o delims quotes state c = (!o.allowChars, { state with inEscape := false }) := by
  simp [advanceOne, hin, hesc]

theorem advanceOne_backslash (hin : state.inQuote = true) (hesc : state.inEscape = false) :
    advanceOne o delims quotes state '\\' = (!o.allowChars, { state with inEscape := true }) := by
  simp [advanceOne, hin, hesc]

theorem advanceOne_close (hin : state.inQuote = true) (hesc : state.inEscape = false)
    (hquote : state.quoteChar ≠ '\\') :
    advanceOne o delims quotes state state.quoteChar =
      (!o.allowChars, { state with inQuote := false }) := by
  simp [advanceOne, hin, hesc, hquote]

theorem advanceOne_quoted (hin : state.inQuote = true) (hesc : state.inEscape = false)
    (hpair : c ≠ '\\') (hquote : c ≠ state.quoteChar) :
    advanceOne o delims quotes state c = (!o.allowChars, state) := by
  simp [advanceOne, hin, hesc, hpair, hquote]

theorem advanceOne_inQuote (hin : state.inQuote = true) :
    (advanceOne o delims quotes state c).1 = !o.allowChars := by
  rw [advanceOne, if_pos hin]
  split_ifs <;> rfl

theorem slurp_of_true {text : List Char}
    (h : advanceOne o delims quotes state c = (true, state')) :
    slurp o delims quotes state (c :: text) = slurp o delims quotes state' text := by
  rw [slurp, h]
  exact if_pos rfl

theorem slurp_of_false {text : List Char}
    (h : (advanceOne o delims quotes state c).1 = false) :
    slurp o delims quotes state (c :: text) =
      ((advanceOne o delims quotes state c).2, c :: text) := by
  rw [slurp]
  exact if_neg (by rw [h]; exact Bool.false_ne_true)

end Characters

/-! ## Rounds -/

section Rounds

variable {o : Options} {delims quotes : Char → Bool} {state : AdvanceState}
  {before text : List Char} {d : Char}

theorem nextRound_end :
    nextRound o delims quotes (state, ⟨before, [], false⟩) = .ok (.done (false, ⟨[], [], true⟩)) :=
  rfl

theorem nextRound_delim :
    nextRound o delims quotes (state, ⟨before, d :: text, false⟩) =
      if o.returnDelims then .ok (.done (true, ⟨d :: text, text, true⟩))
      else .ok (.next (state, ⟨d :: text, text, true⟩)) := by
  rw [nextRound, if_neg Bool.false_ne_true, delimPhase]
  split_ifs <;> rfl

/-- A token that is not empty is returned, and others if they are wanted. -/
theorem nextRound_word {rest : List Char}
    (hslurp : (slurp o delims quotes state text).2 = rest)
    (h : o.returnEmptyTokens = true ∨ text ≠ rest) :
    nextRound o delims quotes (state, ⟨before, text, true⟩) =
      .ok (.done (true, ⟨text, rest, false⟩)) := by
  rw [nextRound, if_pos rfl]
  dsimp only
  rw [hslurp, if_pos h]

theorem nextRound_empty (hslurp : (slurp o delims quotes state text).2 = text)
    (h : o.returnEmptyTokens = false) :
    nextRound o delims quotes (state, ⟨before, text, true⟩) =
      nextRound o delims quotes ((slurp o delims quotes state text).1, ⟨before, text, false⟩) := by
  rw [nextRound, if_pos rfl, nextRound, if_neg Bool.false_ne_true]
  dsimp only
  rw [hslurp, if_neg (by simp [h])]
  cases text <;> rfl

end Rounds

end Webpp.Text.Tokenizer
