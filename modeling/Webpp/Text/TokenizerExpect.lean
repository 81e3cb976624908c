import Mathlib.Data.List.Basic
import Webpp.Text.TokenizerWords

/-!
# Quoted sections that are expected

`expect` with quotes is `full_next`, with the hit of a character turned around. A quoted section is
passed over and not returned, as is any other character that is not allowed, and behind a token the
next character is passed over whatever it is.
-/

namespace Webpp.Text.Tokenizer

open Loop

/-! ## The calls -/

/-- A string, that a token is appended to, or a view, that is set to the token. -/
inductive Out where
  | string (str : List Char)
  | view (str : List Char)
  deriving DecidableEq

/-- `token(out)` -/
def Out.put (out : Out) (token : List Char) : Out :=
  match out with
  | .string str => .string (str ++ token)
  | .view _ => .view token

/-- `next(delims, quotes, out)` -/
def nextInto (o : Options) (delims quotes : Char → Bool) (out : Out) (t : StringTokenizer) :
    Except Fault (Bool × Out × StringTokenizer) :=
  match nextQuoted o delims quotes t with
  | .error fault => .error fault
  | .ok (true, t') => .ok (true, out.put t'.token, t')
  | .ok (false, t') => .ok (false, out, t')

/-- `expect(allowed_chars)` -/
def expect (allowedChars : Char → Bool) (t : StringTokenizer) : Bool × StringTokenizer :=
  (t.tokenEnd.head?.any allowedChars,
    { t with tokenBegin := t.tokenEnd, tokenEnd := t.tokenEnd.dropWhile allowedChars })

/-- `expect(allowed_chars, quotes, out)` -/
def expectQuoted (allowedChars quotes : Char → Bool) (out : Out) (t : StringTokenizer) :
    Except Fault (Bool × Out × StringTokenizer) :=
  nextInto .chars allowedChars quotes out t

/-- `skip(chars)` -/
def skip (chars : Char → Bool) (t : StringTokenizer) : StringTokenizer :=
  let rest := t.tokenEnd.dropWhile chars
  { t with tokenBegin := rest, tokenEnd := rest }

/-- `skip_but(chars)` -/
def skipBut (chars : Char → Bool) (t : StringTokenizer) : StringTokenizer :=
  skip (fun c => !chars c) t

def skipToken (t : StringTokenizer) : StringTokenizer := { t with tokenBegin := t.tokenEnd }

/-- `reset(string_begin)` -/
def reset (stringBegin : List Char) (_ : StringTokenizer) : StringTokenizer :=
  ⟨stringBegin, stringBegin, true⟩

/-! ### What they do to the rest of the text -/

theorem token_takeWhile (p : Char → Bool) (text : List Char) (isDelim : Bool) :
    (⟨text, text.dropWhile p, isDelim⟩ : StringTokenizer).token = text.takeWhile p :=
  StringTokenizer.token_eq List.takeWhile_append_dropWhile.symm

/-! ### States -/

/-- The tokenizers that calls lead to, from the beginning of the text. -/
inductive Reachable (text : List Char) : StringTokenizer → Prop where
  | ofString : Reachable text (.ofString text)
  | next {t t' : StringTokenizer} {found : Bool} (h : Reachable text t) (o : Options)
      (delims : Char → Bool) (hcall : next o delims t = .ok (found, t')) : Reachable text t'
  | nextQuoted {t t' : StringTokenizer} {found : Bool} (h : Reachable text t) (o : Options)
      (delims quotes : Char → Bool) (hcall : nextQuoted o delims quotes t = .ok (found, t')) :
      Reachable text t'
  | expect {t : StringTokenizer} (h : Reachable text t) (allowedChars : Char → Bool) :
      Reachable text (expect allowedChars t).2
  | expectQuoted {t t' : StringTokenizer} {found : Bool} {out' : Out} (h : Reachable text t)
      (allowedChars quotes : Char → Bool) (out : Out)
      (hcall : expectQuoted allowedChars quotes out t = .ok (found, out', t')) : Reachable text t'
  | skip {t : StringTokenizer} (h : Reachable text t) (chars : Char → Bool) :
      Reachable text (skip chars t)
  | skipBut {t : StringTokenizer} (h : Reachable text t) (chars : Char → Bool) :
      Reachable text (skipBut chars t)
  | skipToken {t : StringTokenizer} (h : Reachable text t) : Reachable text (skipToken t)
  | reset {t : StringTokenizer} (h : Reachable text t) {stringBegin : List Char}
      (hbegin : stringBegin <:+ text) : Reachable text (reset stringBegin t)

/-! ## What is expected -/

/-- What stands behind an opening quote, if the section is closed: its content, and the text behind
the closing quote. -/
inductive ClosedSection (backslashCloses : Bool) (quote : Char) :
    List Char → List Char → List Char → Prop where
  | close {text : List Char} (h : quote ≠ '\\' ∨ backslashCloses = true) :
      ClosedSection backslashCloses quote (quote :: text) [] text
  | pair {c : Char} {text content rest : List Char} (h : quote ≠ '\\' ∨ backslashCloses = false)
      (hrest : ClosedSection backslashCloses quote text content rest) :
      ClosedSection backslashCloses quote ('\\' :: c :: text) ('\\' :: c :: content) rest
  | char {c : Char} {text content rest : List Char} (hpair : c ≠ '\\') (hquote : c ≠ quote)
      (hrest : ClosedSection backslashCloses quote text content rest) :
      ClosedSection backslashCloses quote (c :: text) (c :: content) rest

/-- The token that is expected of a text, and the text behind it: the allowed characters if there
is one, or what a section that is opened contains. -/
inductive Expected (backslashCloses : Bool) (allowedChars quotes : Char → Bool) :
    List Char → List Char → List Char → Prop where
  | run {c : Char} {text : List Char} (hc : allowedChars c = true) :
      Expected backslashCloses allowedChars quotes (c :: text)
        ((c :: text).takeWhile allowedChars) ((c :: text).dropWhile allowedChars)
  | quoted {c : Char} {text content rest : List Char} (hc : quotes c = true)
      (hsection : ClosedSection backslashCloses c text content rest) :
      Expected backslashCloses allowedChars quotes (c :: text) content rest

/-- What a call returns, puts into `out` and leaves of the text. -/
def expectResult (allowedChars quotes : Char → Bool) (out : Out) (t : StringTokenizer) :
    Except Fault (Bool × Out × List Char) :=
  (expectQuoted allowedChars quotes out t).map fun r => (r.1, r.2.1, r.2.2.tokenEnd)

/-- A call succeeds with the token that is expected, or fails and consumes nothing if none is; and
as it would behind a reset to the position. -/
def Expects (backslashCloses : Bool) (allowedChars quotes : Char → Bool) (out : Out)
    (t : StringTokenizer) : Prop :=
  ((∃ token rest, Expected backslashCloses allowedChars quotes t.tokenEnd token rest ∧
      expectResult allowedChars quotes out t = .ok (true, out.put token, rest)) ∨
    (¬ ∃ token rest, Expected backslashCloses allowedChars quotes t.tokenEnd token rest) ∧
      expectResult allowedChars quotes out t = .ok (false, out, t.tokenEnd)) ∧
  expectResult allowedChars quotes out t =
    expectResult allowedChars quotes out (reset t.tokenEnd t)

variable {backslashCloses : Bool} {allowedChars quotes : Char → Bool} {out : Out}
  {text rest token before : List Char} {c : Char} {t : StringTokenizer}

theorem Out.put_injective (h : out.put rest = out.put token) : rest = token := by
  cases out with
  | string str =>
      injection h with h
      exact List.append_cancel_left h
  | view str =>
      injection h

theorem ClosedSection.append {quote : Char} {content : List Char}
    (h : ClosedSection backslashCloses quote text content rest) :
    text = content ++ quote :: rest := by
  induction h with
  | close => rfl
  | pair _ _ ih => rw [ih]; rfl
  | char _ _ _ ih => rw [ih]; rfl

/-! ## The rounds -/

section Rounds

variable {state : AdvanceState}

theorem slurp_chars_outside (hstate : state.inQuote = false) (text : List Char) :
    (slurp .chars allowedChars quotes state text).2 = text.dropWhile allowedChars := by
  induction text with
  | nil => rfl
  | cons c text ih =>
      cases hc : allowedChars c with
      | true => rw [slurp_of_true (advanceOne_delim hstate hc), ih, List.dropWhile_cons_of_pos hc]
      | false =>
          have hstop : (advanceOne .chars allowedChars quotes state c).1 = false := by
            rw [advanceOne_outside hstate hc]
            rfl
          rw [slurp_of_false hstop, List.dropWhile_cons_of_neg (by simp [hc])]

theorem slurp_chars_inQuote (hstate : state.inQuote = true) (text : List Char) :
    (slurp .chars allowedChars quotes state text).2 = text := by
  cases text with
  | nil => rfl
  | cons c text => rw [slurp_of_false (advanceOne_inQuote hstate)]

theorem slurp_chars (state : AdvanceState) (text : List Char) :
    ∃ token, text = token ++ (slurp .chars allowedChars quotes state text).2 ∧
      ∀ c ∈ token, allowedChars c = true := by
  cases hstate : state.inQuote with
  | true => exact ⟨[], (slurp_chars_inQuote hstate text).symm, by simp⟩
  | false =>
      rw [slurp_chars_outside hstate]
      exact ⟨_, List.takeWhile_append_dropWhile.symm, fun c hc => List.mem_takeWhile_imp hc⟩

/-- The result comes from a part of the text: it is a token of allowed characters, or nothing at
the end. -/
def Found (allowedChars : Char → Bool) (text : List Char) (r : Bool × StringTokenizer) : Prop :=
  (r.1 = false ∧ r.2.tokenEnd = []) ∨
    (r.1 = true ∧ ∃ skipped token, token ≠ [] ∧ (∀ c ∈ token, allowedChars c = true) ∧
      text = skipped ++ r.2.tokenBegin ∧ r.2.tokenBegin = token ++ r.2.tokenEnd)

theorem Found.cons {r : Bool × StringTokenizer} (h : Found allowedChars text r) (c : Char) :
    Found allowedChars (c :: text) r := by
  rcases h with hend | ⟨hfound, skipped, token, hne, hall, htext, htoken⟩
  · exact .inl hend
  · exact .inr ⟨hfound, c :: skipped, token, hne, hall, by rw [htext]; rfl, htoken⟩

/-- The rounds from a state on end with something found. -/
def FindsFrom (allowedChars quotes : Char → Bool) (s : AdvanceState × StringTokenizer)
    (text : List Char) : Prop :=
  ∃ r, EndsWith (nextRound .chars allowedChars quotes) .exhausted (fun s => s.2.tokenEnd.length) s
    (.ok r) ∧ Found allowedChars text r

theorem findsFrom_end : FindsFrom allowedChars quotes (state, ⟨before, [], false⟩) [] :=
  ⟨_, endsWith_of_done nextRound_end, .inl ⟨rfl, rfl⟩⟩

theorem FindsFrom.delim
    (h : FindsFrom allowedChars quotes (state, ⟨c :: text, text, true⟩) text) :
    FindsFrom allowedChars quotes (state, ⟨before, c :: text, false⟩) text := by
  obtain ⟨r, hends, hfound⟩ := h
  have hround : nextRound .chars allowedChars quotes (state, ⟨before, c :: text, false⟩) =
      .ok (.next (state, ⟨c :: text, text, true⟩)) := nextRound_delim
  exact ⟨r, (leadsTo_of_next hround (Nat.lt_succ_self _)).ends hends, hfound⟩

theorem FindsFrom.empty (hslurp : (slurp .chars allowedChars quotes state text).2 = text)
    (h : FindsFrom allowedChars quotes
      ((slurp .chars allowedChars quotes state text).1, ⟨before, text, false⟩) rest) :
    FindsFrom allowedChars quotes (state, ⟨before, text, true⟩) rest := by
  obtain ⟨r, hends, hfound⟩ := h
  refine ⟨r, fun n hn => ?_, hfound⟩
  cases n with
  | zero => exact absurd hn (Nat.not_lt_zero _)
  | succ n =>
      rw [loop, nextRound_empty hslurp rfl]
      exact hends (n + 1) hn

theorem findsFrom_true (text : List Char) : ∀ (state : AdvanceState) (before : List Char),
    FindsFrom allowedChars quotes (state, ⟨before, text, true⟩) text := by
  induction text with
  | nil => exact fun state before => FindsFrom.empty rfl findsFrom_end
  | cons c text ih =>
      intro state before
      obtain ⟨token, htext, hall⟩ : ∃ token,
          c :: text = token ++ (slurp .chars allowedChars quotes state (c :: text)).2 ∧
            ∀ c ∈ token, allowedChars c = true := slurp_chars state (c :: text)
      by_cases hne : token = []
      · subst hne
        obtain ⟨r, hends, hfound⟩ : FindsFrom allowedChars quotes
          (state, ⟨before, c :: text, true⟩) text := FindsFrom.empty htext.symm (ih _ _).delim
        exact ⟨r, hends, hfound.cons c⟩
      · have hround : nextRound .chars allowedChars quotes (state, ⟨before, c :: text, true⟩) =
            .ok (.done (true, ⟨c :: text, (slurp .chars allowedChars quotes state (c :: text)).2,
              false⟩)) :=
          nextRound_word rfl
            (.inr fun heq => hne (List.self_eq_append_left.1 (heq.symm.trans htext)))
        exact ⟨_, endsWith_of_done hround, .inr ⟨rfl, [], token, hne, hall, rfl, htext⟩⟩

theorem findsFrom_cons {isDelim : Bool} (h : isDelim = false ∨ allowedChars c = false)
    (before text : List Char) :
    FindsFrom allowedChars quotes (.initial, ⟨before, c :: text, isDelim⟩) text := by
  cases isDelim with
  | false => exact (findsFrom_true text _ _).delim
  | true =>
      have hc : allowedChars c = false := h.resolve_left (by decide)
      have hslurp : (slurp .chars allowedChars quotes .initial (c :: text)).2 = c :: text := by
        rw [slurp_chars_outside rfl, List.dropWhile_cons_of_neg (by simp [hc])]
      exact FindsFrom.empty hslurp (findsFrom_true text _ _).delim

end Rounds

/-! ## The result of a call -/

theorem expectResult_of_nextQuoted {found : Bool} {t' : StringTokenizer}
    (h : nextQuoted .chars allowedChars quotes t = .ok (found, t')) :
    expectResult allowedChars quotes out t =
      .ok (found, if found then out.put t'.token else out, t'.tokenEnd) := by
  rw [expectResult, expectQuoted, nextInto, h]
  cases found <;> rfl

theorem expectResult_end (h : t.tokenEnd = []) :
    expectResult allowedChars quotes out t = .ok (false, out, []) := by
  obtain ⟨before, text, isDelim⟩ := t
  subst h
  cases isDelim <;> rfl

theorem expectResult_run (hdelim : t.isDelim = true) (h : t.tokenEnd = c :: text)
    (hc : allowedChars c = true) :
    expectResult allowedChars quotes out t =
      .ok (true, out.put ((c :: text).takeWhile allowedChars),
        (c :: text).dropWhile allowedChars) := by
  obtain ⟨before, text', isDelim⟩ := t
  subst h hdelim
  have hslurp : (slurp .chars allowedChars quotes .initial (c :: text)).2 =
      (c :: text).dropWhile allowedChars := slurp_chars_outside rfl _
  have hsplit : c :: text = (c :: text).takeWhile allowedChars ++
      (c :: text).dropWhile allowedChars := List.takeWhile_append_dropWhile.symm
  have hne : c :: text ≠ (c :: text).dropWhile allowedChars := by
    intro heq
    have hempty := List.self_eq_append_left.1 (heq.symm.trans hsplit)
    rw [List.takeWhile_cons_of_pos hc] at hempty
    cases hempty
  have hround : nextRound .chars allowedChars quotes (.initial, ⟨before, c :: text, true⟩) =
      .ok (.done (true, ⟨c :: text, (c :: text).dropWhile allowedChars, false⟩)) :=
    nextRound_word hslurp (.inr hne)
  have hcall : nextQuoted .chars allowedChars quotes ⟨before, c :: text, true⟩ =
      .ok (true, ⟨c :: text, (c :: text).dropWhile allowedChars, false⟩) :=
    loop_of_done hround _
  rw [expectResult_of_nextQuoted hcall, if_pos rfl, token_takeWhile]

theorem Found.not_expected (hdisjoint : ∀ c, allowedChars c = true → quotes c = false)
    (h : Found allowedChars text (true, t)) :
    ¬ Expected backslashCloses allowedChars quotes (c :: text) t.token t.tokenEnd := by
  obtain ⟨-, skipped, token, hne, hall, htext, htoken⟩ :=
    h.resolve_left fun hend => Bool.noConfusion hend.1
  dsimp only at htext htoken
  rw [htoken] at htext
  rw [StringTokenizer.token_eq htoken]
  generalize t.tokenEnd = rest at htext
  intro hexpected
  cases hexpected with
  | run hc =>
      -- the token begins behind the character
      have hlength := congrArg List.length htext
      have hsplit := congrArg List.length
        (List.takeWhile_append_dropWhile (p := allowedChars) (l := c :: text))
      simp only [List.length_append, List.length_cons] at hlength hsplit
      omega
  | quoted hq hsection =>
      -- a quote stands in front of what is left, and no character of the token is one
      rw [hsection.append, List.append_cons, ← List.append_assoc] at htext
      have hlast := congrArg List.getLast? (List.append_cancel_right htext)
      rw [List.getLast?_concat, List.getLast?_append_of_ne_nil _ hne] at hlast
      have hmem : c ∈ token := List.mem_of_getLast? hlast.symm
      cases hq.symm.trans (hdisjoint c (hall c hmem))

theorem not_expects (hdisjoint : ∀ c, allowedChars c = true → quotes c = false)
    (h : t.tokenEnd = c :: text) (hskip : t.isDelim = false ∨ allowedChars c = false) :
    ¬ Expects backslashCloses allowedChars quotes out t := by
  obtain ⟨before, text', isDelim⟩ := t
  subst h
  obtain ⟨⟨found, t'⟩, hends, hfound⟩ :
    FindsFrom allowedChars quotes (.initial, ⟨before, c :: text, isDelim⟩) text :=
    findsFrom_cons hskip before text
  have hcall : nextQuoted .chars allowedChars quotes ⟨before, c :: text, isDelim⟩ =
      .ok (found, t') := hends _ (Nat.lt_succ_self _)
  rintro ⟨hresult, -⟩
  rw [expectResult_of_nextQuoted hcall] at hresult
  rcases hresult with ⟨token, rest, hexpected, hresult⟩ | ⟨-, hresult⟩
  · obtain ⟨rfl, hout, hrest⟩ : found = true ∧
        (if found then out.put t'.token else out) = out.put token ∧ t'.tokenEnd = rest := by
      simpa only [Except.ok.injEq, Prod.mk.injEq] using hresult
    rw [← Out.put_injective hout, ← hrest] at hexpected
    exact hfound.not_expected hdisjoint hexpected
  · obtain ⟨rfl, -, hend⟩ : found = false ∧
        (if found then out.put t'.token else out) = out ∧ t'.tokenEnd = c :: text := by
      simpa only [Except.ok.injEq, Prod.mk.injEq] using hresult
    rcases hfound with ⟨-, hnil⟩ | ⟨hfalse, -⟩
    · cases hnil.symm.trans hend
    · cases hfalse

theorem expects_end (h : t.tokenEnd = []) : Expects backslashCloses allowedChars quotes out t := by
  refine ⟨.inr ⟨?_, ?_⟩, ?_⟩
  · rintro ⟨token, rest, hexpected⟩
    rw [h] at hexpected
    cases hexpected
  · rw [expectResult_end h, h]
  · rw [expectResult_end h, expectResult_end (t := reset t.tokenEnd t) h]

theorem expects_run (hdelim : t.isDelim = true) (h : t.tokenEnd = c :: text)
    (hc : allowedChars c = true) : Expects backslashCloses allowedChars quotes out t := by
  have hexpected : Expected backslashCloses allowedChars quotes t.tokenEnd
      ((c :: text).takeWhile allowedChars) ((c :: text).dropWhile allowedChars) := by
    rw [h]
    exact .run hc
  refine ⟨.inl ⟨_, _, hexpected, expectResult_run hdelim h hc⟩, ?_⟩
  rw [expectResult_run hdelim h hc, expectResult_run (t := reset t.tokenEnd t) rfl h hc]

/-- A call does what is expected at the end, and where the next character is allowed and is not
behind a token. -/
theorem expects_iff (hdisjoint : ∀ c, allowedChars c = true → quotes c = false)
    (t : StringTokenizer) :
    Expects backslashCloses allowedChars quotes out t ↔
      t.tokenEnd = [] ∨ (t.isDelim = true ∧ ∃ c ∈ t.tokenEnd.head?, allowedChars c = true) := by
  constructor
  · intro hexpects
    cases htext : t.tokenEnd with
    | nil => exact .inl rfl
    | cons c text =>
        by_contra hskip
        refine not_expects hdisjoint htext ?_ hexpects
        simpa [or_iff_not_imp_left] using hskip
  · rintro (hend | ⟨hdelim, c, hhead, hc⟩)
    · exact expects_end hend
    · obtain ⟨text, htext⟩ := List.head?_eq_some_iff.1 hhead
      exact expects_run hdelim htext hc

/-! ## Every position -/

theorem Reachable.exists_token (h : Reachable text t) :
    ∃ t', Reachable text t' ∧ t'.tokenEnd = t.tokenEnd ∧ t'.isDelim = false := by
  cases hdelim : t.isDelim with
  | false => exact ⟨t, h, rfl, hdelim⟩
  | true =>
      have hslurp : (slurp ⟨false, true, false⟩ (fun _ => true) nullChar .initial t.tokenEnd).2 =
          t.tokenEnd := by
        cases t.tokenEnd <;> rfl
      obtain ⟨before, rest, isDelim⟩ := t
      subst hdelim
      have hround : nextRound ⟨false, true, false⟩ (fun _ => true) nullChar
          (.initial, ⟨before, rest, true⟩) = .ok (.done (true, ⟨rest, rest, false⟩)) :=
        nextRound_word hslurp (.inl rfl)
      have hcall : Tokenizer.nextQuoted ⟨false, true, false⟩ (fun _ => true) nullChar
          ⟨before, rest, true⟩ = .ok (true, ⟨rest, rest, false⟩) := by
        rw [Tokenizer.nextQuoted, fullNext]
        exact loop_of_done hround _
      exact ⟨⟨rest, rest, false⟩, .nextQuoted h _ _ _ hcall, rfl, rfl⟩

/-- At a position that calls lead to, `expect` does what is expected exactly at the end, or if the
next character is allowed and the last token was a delimiter. Whatever calls lead to the position,
it does so only at the end. -/
theorem expectQuoted_iff (hdisjoint : ∀ c, allowedChars c = true → quotes c = false)
    (hreach : Reachable text t) (backslashCloses : Bool) (out : Out) :
    (Expects backslashCloses allowedChars quotes out t ↔
      t.tokenEnd = [] ∨ (t.isDelim = true ∧ ∃ c ∈ t.tokenEnd.head?, allowedChars c = true)) ∧
    ((∀ t', Reachable text t' → t'.tokenEnd = t.tokenEnd →
      Expects backslashCloses allowedChars quotes out t') ↔ t.tokenEnd = []) := by
  refine ⟨expects_iff hdisjoint t, fun hall => ?_, fun hend t' _ ht' => ?_⟩
  swap
  · exact expects_end (ht'.trans hend)
  obtain ⟨t', hreach', hposition, hdelim⟩ := hreach.exists_token
  rcases (expects_iff hdisjoint t').1 (hall t' hreach' hposition) with hend | ⟨hdelim', -⟩
  · exact hposition.symm.trans hend
  · cases hdelim.symm.trans hdelim'

theorem eq_disjoint {a q : Char} (h : a ≠ q) (c : Char) (hc : (c == a) = true) :
    (c == q) = false := by
  rw [beq_iff_eq.1 hc]
  exact beq_false_of_ne h

/-- An allowed letter is the token at the beginning. -/
theorem expectQuoted_iff_letter :
    (Expects false (· == 'a') (· == '\'') (.view []) (.ofString ['a']) ↔
      ['a'] = [] ∨ (true = true ∧ ∃ c ∈ ['a'].head?, (c == 'a') = true)) ∧
    ((∀ t', Reachable ['a'] t' → t'.tokenEnd = ['a'] →
      Expects false (· == 'a') (· == '\'') (.view []) t') ↔ ['a'] = []) :=
  expectQuoted_iff (eq_disjoint (by decide)) .ofString false (.view [])

/-- The content of `'b'` is not returned. -/
theorem not_expects_quoted :
    ¬ ∀ t, Reachable ['\'', 'b', '\''] t →
      Expects false (· == 'b') (· == '\'') (.view []) t :=
  fun h => not_expects (eq_disjoint (by decide)) rfl (.inr rfl) (h _ .ofString)

end Webpp.Text.Tokenizer
