import Webpp.Text.Tokenizer

/-!
# The words between the delimiters

A text is cut at its delimiters that are outside of quotes. In a quoted section a backslash is
paired with the character behind it, and the section ends at its quote character outside of such
pairs. A section that a backslash has opened does not end, because it never is outside of a pair.
-/

namespace Webpp.Text.Tokenizer

open Loop

variable {r : Bool × StringTokenizer} {cuts : List (Char × List Char)}

/-! ## Words -/

/-- What stands behind an opening quote: a section up to its end, and the rest of the text. Where
`backslashCloses`, a section that a backslash has opened ends at the next one. -/
inductive QuotedSection (backslashCloses : Bool) (quote : Char) :
    List Char → List Char → List Char → Prop where
  | unclosed : QuotedSection backslashCloses quote [] [] []
  | unpaired (h : quote ≠ '\\' ∨ backslashCloses = false) :
      QuotedSection backslashCloses quote ['\\'] ['\\'] []
  | pair {c : Char} {text quoted rest : List Char} (h : quote ≠ '\\' ∨ backslashCloses = false)
      (hrest : QuotedSection backslashCloses quote text quoted rest) :
      QuotedSection backslashCloses quote ('\\' :: c :: text) ('\\' :: c :: quoted) rest
  | char {c : Char} {text quoted rest : List Char} (hpair : c ≠ '\\') (hquote : c ≠ quote)
      (hrest : QuotedSection backslashCloses quote text quoted rest) :
      QuotedSection backslashCloses quote (c :: text) (c :: quoted) rest
  | close {text : List Char} (h : quote ≠ '\\' ∨ backslashCloses = true) :
      QuotedSection backslashCloses quote (quote :: text) [quote] text

variable {backslashCloses : Bool} {delims quotes : Char → Bool}
  {text rest rest' word word' : List Char}

/-- A word up to the first delimiter outside of quotes, and the rest of the text. -/
inductive Word (backslashCloses : Bool) (delims quotes : Char → Bool) :
    List Char → List Char → List Char → Prop where
  | nil : Word backslashCloses delims quotes [] [] []
  | delim {d : Char} {text : List Char} (hd : delims d = true) :
      Word backslashCloses delims quotes (d :: text) [] (d :: text)
  | char {c : Char} {text word rest : List Char} (hd : delims c = false) (hq : quotes c = false)
      (hrest : Word backslashCloses delims quotes text word rest) :
      Word backslashCloses delims quotes (c :: text) (c :: word) rest
  | quote {c : Char} {text quoted behind word rest : List Char} (hd : delims c = false)
      (hq : quotes c = true) (hsection : QuotedSection backslashCloses c text quoted behind)
      (hrest : Word backslashCloses delims quotes behind word rest) :
      Word backslashCloses delims quotes (c :: text) (c :: (quoted ++ word)) rest

/-- The delimiters behind a word, each with the word behind it. -/
inductive Behind (backslashCloses : Bool) (delims quotes : Char → Bool) :
    List Char → List (Char × List Char) → Prop where
  | nil : Behind backslashCloses delims quotes [] []
  | cons {d : Char} {text word rest : List Char} {cuts : List (Char × List Char)}
      (hword : Word backslashCloses delims quotes text word rest)
      (hrest : Behind backslashCloses delims quotes rest cuts) :
      Behind backslashCloses delims quotes (d :: text) ((d, word) :: cuts)

/-- The text is cut into its first word, and delimiters with the words behind them. -/
def Cuts (backslashCloses : Bool) (delims quotes : Char → Bool) (text word : List Char)
    (cuts : List (Char × List Char)) : Prop :=
  ∃ rest, Word backslashCloses delims quotes text word rest ∧
    Behind backslashCloses delims quotes rest cuts

/-! ### Their texts -/

theorem QuotedSection.append {quote : Char} {quoted : List Char}
    (h : QuotedSection backslashCloses quote text quoted rest) : text = quoted ++ rest := by
  induction h with
  | unclosed => rfl
  | unpaired => rfl
  | pair _ _ ih => rw [ih]; rfl
  | char _ _ _ ih => rw [ih]; rfl
  | close => rfl

theorem Word.append (h : Word backslashCloses delims quotes text word rest) :
    text = word ++ rest := by
  induction h with
  | nil => rfl
  | delim => rfl
  | char _ _ _ ih => rw [ih]; rfl
  | quote _ _ hsection _ ih => rw [hsection.append, ih]; simp

theorem Word.rest_eq (h : Word backslashCloses delims quotes text word rest) :
    rest = [] ∨ ∃ d text', rest = d :: text' ∧ delims d = true := by
  induction h with
  | nil => exact .inl rfl
  | delim hd => exact .inr ⟨_, _, rfl, hd⟩
  | char _ _ _ ih => exact ih
  | quote _ _ _ _ ih => exact ih

theorem Word.head?_rest (h : Word backslashCloses delims quotes text word rest) :
    ∀ d ∈ rest.head?, delims d = true := by
  intro d hd
  rcases h.rest_eq with rfl | ⟨d', text', rfl, hd'⟩
  · cases hd
  · cases hd
    exact hd'

theorem Word.head_ne (h : Word backslashCloses delims quotes text word rest) {c : Char}
    (hc : word.head? = some c) : delims c = false := by
  cases h with
  | nil => cases hc
  | delim => cases hc
  | char hd =>
      cases hc
      exact hd
  | quote hd =>
      cases hc
      exact hd

theorem Behind.append (h : Behind backslashCloses delims quotes text cuts) :
    cuts.flatMap (fun cut => cut.1 :: cut.2) = text := by
  induction h with
  | nil => rfl
  | cons hword _ ih => rw [List.flatMap_cons, ih, List.cons_append, ← hword.append]

/-! ### There is one way to cut -/

theorem closes_apart (h : '\\' ≠ '\\' ∨ backslashCloses = false)
    (h' : '\\' ≠ '\\' ∨ backslashCloses = true) : False := by
  have hfalse : backslashCloses = false := h.resolve_left fun hne => hne rfl
  have htrue : backslashCloses = true := h'.resolve_left fun hne => hne rfl
  cases hfalse.symm.trans htrue

theorem QuotedSection.unique {quote : Char} {quoted quoted' : List Char}
    (h : QuotedSection backslashCloses quote text quoted rest)
    (h' : QuotedSection backslashCloses quote text quoted' rest') :
    quoted = quoted' ∧ rest = rest' := by
  induction h generalizing quoted' with
  | unclosed =>
      cases h'
      exact ⟨rfl, rfl⟩
  | unpaired h =>
      cases h' with
      | unpaired => exact ⟨rfl, rfl⟩
      | char hpair => exact absurd rfl hpair
      | close hclose => exact (closes_apart h hclose).elim
  | pair h _ ih =>
      cases h' with
      | pair _ hrest' =>
          obtain ⟨rfl, rfl⟩ := ih hrest'
          exact ⟨rfl, rfl⟩
      | char hpair => exact absurd rfl hpair
      | close hclose => exact (closes_apart h hclose).elim
  | char hpair hquote _ ih =>
      cases h' with
      | unpaired => exact absurd rfl hpair
      | pair => exact absurd rfl hpair
      | char _ _ hrest' =>
          obtain ⟨rfl, rfl⟩ := ih hrest'
          exact ⟨rfl, rfl⟩
      | close => exact absurd rfl hquote
  | close h =>
      cases h' with
      | unpaired h' => exact (closes_apart h' h).elim
      | pair h' => exact (closes_apart h' h).elim
      | char _ hquote => exact absurd rfl hquote
      | close => exact ⟨rfl, rfl⟩

theorem Word.unique (h : Word backslashCloses delims quotes text word rest)
    (h' : Word backslashCloses delims quotes text word' rest') : word = word' ∧ rest = rest' := by
  induction h generalizing word' with
  | nil =>
      cases h'
      exact ⟨rfl, rfl⟩
  | delim hd =>
      cases h' with
      | delim => exact ⟨rfl, rfl⟩
      | char hd' => cases hd.symm.trans hd'
      | quote hd' => cases hd.symm.trans hd'
  | char hd hq _ ih =>
      cases h' with
      | delim hd' => cases hd.symm.trans hd'
      | char _ _ hrest' =>
          obtain ⟨rfl, rfl⟩ := ih hrest'
          exact ⟨rfl, rfl⟩
      | quote _ hq' => cases hq.symm.trans hq'
  | quote hd hq hsection _ ih =>
      cases h' with
      | delim hd' => cases hd.symm.trans hd'
      | char _ hq' => cases hq.symm.trans hq'
      | quote _ _ hsection' hrest' =>
          obtain ⟨rfl, rfl⟩ := hsection.unique hsection'
          obtain ⟨rfl, rfl⟩ := ih hrest'
          exact ⟨rfl, rfl⟩

theorem Behind.unique {cuts cuts' : List (Char × List Char)}
    (h : Behind backslashCloses delims quotes text cuts)
    (h' : Behind backslashCloses delims quotes text cuts') : cuts = cuts' := by
  induction h generalizing cuts' with
  | nil =>
      cases h'
      rfl
  | cons hword _ ih =>
      cases h' with
      | cons hword' hrest' =>
          obtain ⟨rfl, rfl⟩ := hword.unique hword'
          rw [ih hrest']

theorem Cuts.unique {cuts cuts' : List (Char × List Char)}
    (h : Cuts backslashCloses delims quotes text word cuts)
    (h' : Cuts backslashCloses delims quotes text word' cuts') : word = word' ∧ cuts = cuts' := by
  obtain ⟨rest, hword, hbehind⟩ := h
  obtain ⟨rest', hword', hbehind'⟩ := h'
  obtain ⟨rfl, rfl⟩ := hword.unique hword'
  exact ⟨rfl, hbehind.unique hbehind'⟩

/-! ## The loop over a token -/

/-- A state outside of quotes. -/
def AdvanceState.Outside (state : AdvanceState) : Prop :=
  state.inQuote = false ∧ state.inEscape = false

theorem AdvanceState.outside_initial : AdvanceState.initial.Outside := ⟨rfl, rfl⟩

section Slurp

variable {o : Options} {state : AdvanceState} {c : Char}

/-- The loop slurps a word. In a quoted section it slurps the rest of the section and the word
behind it; behind a backslash the section begins with the backslash. -/
theorem slurp_word (ho : o.allowChars = false) (text : List Char) (state : AdvanceState) :
    (state.Outside → ∃ word, Word false delims quotes text word
      (slurp o delims quotes state text).2) ∧
    (state.inQuote = true → state.inEscape = false → ∃ quoted behind word,
      QuotedSection false state.quoteChar text quoted behind ∧
        Word false delims quotes behind word (slurp o delims quotes state text).2) ∧
    (state.inQuote = true → state.inEscape = true → ∃ quoted behind word,
      QuotedSection false state.quoteChar ('\\' :: text) quoted behind ∧
        Word false delims quotes behind word (slurp o delims quotes state text).2) := by
  induction text generalizing state with
  | nil =>
      refine ⟨fun _ => ⟨[], .nil⟩, fun _ _ => ⟨[], [], [], .unclosed, .nil⟩, fun _ _ => ?_⟩
      exact ⟨['\\'], [], [], .unpaired (.inr rfl), .nil⟩
  | cons c text ih =>
      refine ⟨fun hout => ?_, fun hin hesc => ?_, fun hin hesc => ?_⟩
      · -- outside of quotes
        cases hd : delims c with
        | true =>
            have hstop : (advanceOne o delims quotes state c).1 = false := by
              rw [advanceOne_delim hout.1 hd, ho]
            rw [slurp_of_false hstop]
            exact ⟨[], .delim hd⟩
        | false =>
            have hadvance : advanceOne o delims quotes state c =
                (true, { state with quoteChar := c, inQuote := quotes c }) := by
              rw [advanceOne_outside hout.1 hd, ho, Bool.not_false]
            rw [slurp_of_true hadvance]
            cases hq : quotes c with
            | false =>
                obtain ⟨word, hword⟩ := (ih ⟨c, false, state.inEscape⟩).1 ⟨rfl, hout.2⟩
                exact ⟨c :: word, .char hd hq hword⟩
            | true =>
                obtain ⟨quoted, behind, word, hsection, hword⟩ :=
                  (ih ⟨c, true, state.inEscape⟩).2.1 rfl hout.2
                exact ⟨c :: (quoted ++ word), .quote hd hq hsection hword⟩
      · -- in a quoted section
        by_cases hescape : c = '\\'
        · subst hescape
          have hadvance : advanceOne o delims quotes state '\\' =
              (true, { state with inEscape := true }) := by
            rw [advanceOne_backslash hin hesc, ho, Bool.not_false]
          rw [slurp_of_true hadvance]
          exact (ih { state with inEscape := true }).2.2 hin rfl
        · by_cases hclose : c = state.quoteChar
          · subst hclose
            have hadvance : advanceOne o delims quotes state state.quoteChar =
                (true, { state with inQuote := false }) := by
              rw [advanceOne_close hin hesc hescape, ho, Bool.not_false]
            rw [slurp_of_true hadvance]
            obtain ⟨word, hword⟩ := (ih { state with inQuote := false }).1 ⟨rfl, hesc⟩
            exact ⟨[state.quoteChar], text, word, .close (.inl hescape), hword⟩
          · have hadvance : advanceOne o delims quotes state c = (true, state) := by
              rw [advanceOne_quoted hin hesc hescape hclose, ho, Bool.not_false]
            rw [slurp_of_true hadvance]
            obtain ⟨quoted, behind, word, hsection, hword⟩ := (ih state).2.1 hin hesc
            exact ⟨c :: quoted, behind, word, .char hescape hclose hsection, hword⟩
      · -- behind a backslash
        have hadvance : advanceOne o delims quotes state c =
            (true, { state with inEscape := false }) := by
          rw [advanceOne_escaped hin hesc, ho, Bool.not_false]
        rw [slurp_of_true hadvance]
        obtain ⟨quoted, behind, word, hsection, hword⟩ :=
          (ih { state with inEscape := false }).2.1 hin rfl
        exact ⟨'\\' :: c :: quoted, behind, word, .pair (.inr rfl) hsection, hword⟩

/-- A state that is in no pair outside of quotes. -/
def AdvanceState.Consistent (state : AdvanceState) : Prop :=
  state.inQuote = false → state.inEscape = false

theorem AdvanceState.Outside.consistent (h : state.Outside) : state.Consistent := fun _ => h.2

theorem advanceOne_consistent (h : state.Consistent) :
    (advanceOne o delims quotes state c).2.Consistent := by
  rw [advanceOne]
  split_ifs with hin hesc hback hclose hd
  · exact fun _ => rfl
  · exact fun hout => absurd (hin.symm.trans hout) (by decide)
  · exact fun _ => Bool.not_eq_true _ ▸ hesc
  · exact h
  · exact h
  · exact fun _ => h (Bool.not_eq_true _ ▸ hin)

theorem advanceOne_stops (ho : o.allowChars = false)
    (h : (advanceOne o delims quotes state c).1 = false) :
    (advanceOne o delims quotes state c).2 = state ∧ state.inQuote = false := by
  cases hin : state.inQuote with
  | true =>
      rw [advanceOne_inQuote hin, ho] at h
      cases h
  | false =>
      cases hd : delims c with
      | true =>
          rw [advanceOne_delim hin hd]
          exact ⟨rfl, rfl⟩
      | false =>
          rw [advanceOne_outside hin hd, ho] at h
          cases h

theorem outside_of_slurp (ho : o.allowChars = false) {d : Char} {rest : List Char}
    (hstate : state.Consistent) (h : (slurp o delims quotes state text).2 = d :: rest) :
    (slurp o delims quotes state text).1.Outside := by
  induction text generalizing state with
  | nil => cases h
  | cons c text ih =>
      cases hadvance : (advanceOne o delims quotes state c).1 with
      | true =>
          have heq : advanceOne o delims quotes state c =
              (true, (advanceOne o delims quotes state c).2) := Prod.ext hadvance rfl
          rw [slurp_of_true heq] at h ⊢
          exact ih (advanceOne_consistent hstate) h
      | false =>
          obtain ⟨heq, hout⟩ := advanceOne_stops ho hadvance
          rw [slurp_of_false hadvance, heq]
          exact ⟨hout, hstate hout⟩

end Slurp

/-! ## Calls -/

section Calls

variable {o : Options} {before before' : List Char} {d : Char}

/-- The rounds from a tokenizer on, outside of quotes, end with a result. -/
def Ends (o : Options) (delims quotes : Char → Bool) (t : StringTokenizer)
    (r : Bool × StringTokenizer) : Prop :=
  ∀ state : AdvanceState, state.Outside →
    EndsWith (nextRound o delims quotes) .exhausted (fun s => s.2.tokenEnd.length) (state, t)
      (.ok r)

theorem Ends.fullNext {t : StringTokenizer}
    (h : Ends o delims quotes t r) : fullNext o delims quotes t = .ok r :=
  h .initial AdvanceState.outside_initial _ (Nat.lt_succ_self _)

theorem ends_end : Ends o delims quotes ⟨before, [], false⟩ (false, ⟨[], [], true⟩) :=
  fun _ _ => endsWith_of_done nextRound_end

theorem ends_delim (h : o.returnDelims = true) :
    Ends o delims quotes ⟨before, d :: text, false⟩ (true, ⟨d :: text, text, true⟩) :=
  fun _ _ => endsWith_of_done (by rw [nextRound_delim, if_pos h])

/-- A delimiter that is not wanted is passed over. -/
theorem Ends.delim (h : o.returnDelims = false)
    (hrest : Ends o delims quotes ⟨d :: text, text, true⟩ r) :
    Ends o delims quotes ⟨before, d :: text, false⟩ r := by
  intro state hstate
  have hround : nextRound o delims quotes (state, ⟨before, d :: text, false⟩) =
      .ok (.next (state, ⟨d :: text, text, true⟩)) := by
    rw [nextRound_delim, if_neg (by rw [h]; exact Bool.false_ne_true)]
  exact (leadsTo_of_next hround (Nat.lt_succ_self _)).ends (hrest state hstate)

theorem slurp_eq (ho : o.allowChars = false) (hword : Word false delims quotes text word rest)
    {state : AdvanceState} (hstate : state.Outside) :
    (slurp o delims quotes state text).2 = rest := by
  obtain ⟨word', hword'⟩ := (slurp_word ho text state).1 hstate
  exact (hword'.unique hword).2

theorem ends_word (ho : o.allowChars = false) (hword : Word false delims quotes text word rest)
    (h : o.returnEmptyTokens = true ∨ word ≠ []) :
    Ends o delims quotes ⟨before, text, true⟩ (true, ⟨text, rest, false⟩) := by
  intro state hstate
  refine endsWith_of_done (nextRound_word (slurp_eq ho hword hstate) (h.imp_right ?_))
  intro hne heq
  have happend := hword.append
  rw [heq] at happend
  exact hne (List.self_eq_append_left.1 happend)

/-- An empty word that is not wanted is passed over. -/
theorem Ends.empty (ho : o.allowChars = false) (hempty : o.returnEmptyTokens = false)
    (hword : Word false delims quotes text [] text)
    (hrest : Ends o delims quotes ⟨before, text, false⟩ r) :
    Ends o delims quotes ⟨before, text, true⟩ r := by
  intro state hstate
  have hslurp := slurp_eq ho hword hstate
  have houtside : (slurp o delims quotes state text).1.Outside := by
    cases text with
    | nil => exact hstate
    | cons d text => exact outside_of_slurp ho hstate.consistent hslurp
  have hround : nextRound o delims quotes (state, ⟨before, text, true⟩) =
      nextRound o delims quotes ((slurp o delims quotes state text).1, ⟨before, text, false⟩) :=
    nextRound_empty hslurp hempty
  intro n hn
  cases n with
  | zero => exact absurd hn (Nat.not_lt_zero _)
  | succ n =>
      rw [loop, hround]
      exact hrest _ houtside (n + 1) hn

theorem exists_ends (ho : o.allowChars = false) (text : List Char) :
    ∀ before, (∃ r, Ends o delims quotes ⟨before, text, false⟩ r) ∧
      ∃ r, Ends o delims quotes ⟨before, text, true⟩ r := by
  induction text with
  | nil =>
      intro before
      refine ⟨⟨_, ends_end⟩, ?_⟩
      cases hempty : o.returnEmptyTokens with
      | true => exact ⟨_, ends_word ho .nil (.inl hempty)⟩
      | false => exact ⟨_, ends_end.empty ho hempty .nil⟩
  | cons d text ih =>
      intro before
      have hdelim : ∃ r, Ends o delims quotes ⟨before, d :: text, false⟩ r := by
        cases hdelims : o.returnDelims with
        | true => exact ⟨_, ends_delim hdelims⟩
        | false =>
            obtain ⟨r, hr⟩ := (ih (d :: text)).2
            exact ⟨r, hr.delim hdelims⟩
      refine ⟨hdelim, ?_⟩
      obtain ⟨word, hword⟩ :=
        (slurp_word ho (d :: text) .initial).1 AdvanceState.outside_initial
      by_cases hne : o.returnEmptyTokens = true ∨ word ≠ []
      · exact ⟨_, ends_word ho hword hne⟩
      · rw [not_or, not_not, Bool.not_eq_true] at hne
        obtain ⟨hempty, rfl⟩ := hne
        have hrest := hword.append
        rw [List.nil_append] at hrest
        rw [← hrest] at hword
        obtain ⟨r, hr⟩ := hdelim
        exact ⟨r, hr.empty ho hempty hword⟩

theorem Ends.of_before {isDelim : Bool} (h : Ends o delims quotes ⟨before, text, isDelim⟩ r) :
    Ends o delims quotes ⟨before', text, isDelim⟩ r := by
  intro state hstate n hn
  have hround : nextRound o delims quotes (state, ⟨before', text, isDelim⟩) =
      nextRound o delims quotes (state, ⟨before, text, isDelim⟩) := by
    cases isDelim with
    | true => rfl
    | false => cases text <;> rfl
  cases n with
  | zero => exact absurd hn (Nat.not_lt_zero _)
  | succ n =>
      rw [loop, hround]
      exact h state hstate (n + 1) hn

theorem fullNext_delim (ho : o.allowChars = false) (h : o.returnDelims = false)
    (before before' : List Char) (d : Char) (text : List Char) :
    fullNext o delims quotes ⟨before, d :: text, false⟩ =
      fullNext o delims quotes ⟨before', text, true⟩ := by
  obtain ⟨r, hr⟩ := (exists_ends ho text before').2
  rw [hr.fullNext, (hr.of_before.delim h).fullNext]

theorem fullNext_empty (ho : o.allowChars = false) (h : o.returnEmptyTokens = false)
    (hword : Word false delims quotes text [] rest) (before before' : List Char) :
    fullNext o delims quotes ⟨before, text, true⟩ =
      fullNext o delims quotes ⟨before', rest, false⟩ := by
  have hrest := hword.append
  rw [List.nil_append] at hrest
  subst hrest
  obtain ⟨r, hr⟩ := (exists_ends ho text before').1
  rw [hr.fullNext, (hr.of_before.empty ho h hword).fullNext]

theorem fullNext_word (ho : o.allowChars = false)
    (hword : Word false delims quotes text word rest)
    (h : o.returnEmptyTokens = true ∨ word ≠ []) (before : List Char) :
    fullNext o delims quotes ⟨before, text, true⟩ = .ok (true, ⟨text, rest, false⟩) :=
  (ends_word ho hword h).fullNext

end Calls

/-! ## Sequences of calls -/

theorem Word.token (h : Word false delims quotes text word rest) (isDelim : Bool) :
    (⟨text, rest, isDelim⟩ : StringTokenizer).token = word :=
  StringTokenizer.token_eq h.append

theorem token_delim (d : Char) (text : List Char) (isDelim : Bool) :
    (⟨d :: text, text, isDelim⟩ : StringTokenizer).token = [d] :=
  StringTokenizer.token_eq rfl

/-- The words that are not empty. -/
def nonEmpty (words : List (List Char)) : List (List Char) := words.filter fun word => word ≠ []

theorem nonEmpty_cons (word : List Char) (words : List (List Char)) :
    nonEmpty (word :: words) = nonEmpty [word] ++ nonEmpty words := by
  rw [nonEmpty, nonEmpty, nonEmpty, ← List.filter_append]
  rfl

/-- The calls of `full_next` with some options. -/
def fullCalls (o : Options) (delims quotes : Char → Bool) :
    ℕ → StringTokenizer → Except Fault (Bool × StringTokenizer) :=
  fun _ => fullNext o delims quotes

section Sequences

variable {o : Options} {tokens : List (List Char)} {cuts : List (Char × List Char)}

/-- Calls that find a word if it is not empty, and are at its end otherwise, yield it if it is not
empty, and then what is behind it. -/
theorem Yields.of_word {calls : ℕ → StringTokenizer → Except Fault (Bool × StringTokenizer)} {i : ℕ}
    {before : List Char} (hword : Word false delims quotes text word rest)
    (hfound : word ≠ [] → calls i ⟨before, text, true⟩ = .ok (true, ⟨text, rest, false⟩))
    (hempty : word = [] → calls i ⟨before, text, true⟩ = calls i ⟨[], rest, false⟩)
    (hrest : ∀ i before, Yields calls i ⟨before, rest, false⟩ tokens) :
    Yields calls i ⟨before, text, true⟩ (nonEmpty [word] ++ tokens) := by
  by_cases hne : word = []
  · rw [nonEmpty, List.filter_cons_of_neg (by simp [hne])]
    exact (hrest i []).of_eq (hempty hne)
  · have htoken := Yields.token (hfound hne) (hrest (i + 1) text)
    rw [hword.token] at htoken
    rw [nonEmpty, List.filter_cons_of_pos (by simp [hne])]
    exact htoken

/-- A word is yielded if it is not empty, and then what is behind it. -/
theorem yields_word (ho : o.allowChars = false) (hempty : o.returnEmptyTokens = false)
    (hword : Word false delims quotes text word rest)
    (hrest : ∀ i before, Yields (fullCalls o delims quotes) i ⟨before, rest, false⟩ tokens)
    (i : ℕ) (before : List Char) :
    Yields (fullCalls o delims quotes) i ⟨before, text, true⟩ (nonEmpty [word] ++ tokens) :=
  Yields.of_word hword (fun hne => fullNext_word ho hword (.inr hne) before)
    (fun hnil => fullNext_empty ho hempty (hnil ▸ hword) before []) hrest

theorem yields_words (h : Behind false delims quotes text cuts) :
    ∀ i before, Yields (fullCalls .none delims quotes) i ⟨before, text, false⟩
      (nonEmpty (cuts.map Prod.snd)) := by
  induction h with
  | nil => exact fun i before => .done ends_end.fullNext
  | @cons d text word rest cuts hword hrest ih =>
      intro i before
      rw [List.map_cons, nonEmpty_cons]
      exact (yields_word rfl rfl hword ih i []).of_eq (fullNext_delim rfl rfl before [] d text)

/-- The delimiters are yielded, each with the word behind it if that is not empty. -/
theorem yields_delims (h : Behind false delims quotes text cuts) :
    ∀ i before, Yields (fullCalls .delims delims quotes) i ⟨before, text, false⟩
      (cuts.flatMap fun cut => [cut.1] :: nonEmpty [cut.2]) := by
  induction h with
  | nil => exact fun i before => .done ends_end.fullNext
  | @cons d text word rest cuts hword hrest ih =>
      intro i before
      have hdelim : Ends .delims delims quotes ⟨before, d :: text, false⟩
          (true, ⟨d :: text, text, true⟩) := ends_delim rfl
      have hyields := yields_word rfl rfl hword ih (i + 1) (d :: text)
      have htoken := Yields.token hdelim.fullNext hyields
      rw [token_delim] at htoken
      rw [List.flatMap_cons]
      exact htoken

theorem yields_all (h : Behind false delims quotes text cuts) :
    ∀ i before, Yields (fullCalls .delimsAndEmptyTokens delims quotes) i ⟨before, text, false⟩
      (cuts.flatMap fun cut => [[cut.1], cut.2]) := by
  induction h with
  | nil => exact fun i before => .done ends_end.fullNext
  | @cons d text word rest cuts hword hrest ih =>
      intro i before
      have hdelim : Ends .delimsAndEmptyTokens delims quotes ⟨before, d :: text, false⟩
          (true, ⟨d :: text, text, true⟩) := ends_delim rfl
      have htoken := Yields.token (fullNext_word rfl hword (.inl rfl) (d :: text)) (ih (i + 2) text)
      have hboth := Yields.token hdelim.fullNext htoken
      rw [hword.token, token_delim] at hboth
      exact hboth

end Sequences

/-! ## All texts -/

/-- Calls of `next` yield the words that are not empty, and with the options for delimiters and
empty tokens the words and the delimiters in turn, which together are the text. -/
def YieldsWords (backslashCloses : Bool) (delims quotes : Char → Bool) (text : List Char) : Prop :=
  ∃ word cuts, Cuts backslashCloses delims quotes text word cuts ∧
    word ++ cuts.flatMap (fun cut => cut.1 :: cut.2) = text ∧
    Yields (fun _ => nextQuoted .none delims quotes) 0 (.ofString text)
      (nonEmpty (word :: cuts.map Prod.snd)) ∧
    Yields (fun _ => nextQuoted .delimsAndEmptyTokens delims quotes) 0 (.ofString text)
      (word :: cuts.flatMap fun cut => [[cut.1], cut.2])

theorem exists_word (delims quotes : Char → Bool) (text : List Char) :
    ∃ word rest, Word false delims quotes text word rest := by
  obtain ⟨word, hword⟩ : ∃ word, Word false delims quotes text word
      (slurp .none delims quotes .initial text).2 :=
    (slurp_word rfl text .initial).1 AdvanceState.outside_initial
  exact ⟨word, _, hword⟩

theorem exists_behind (delims quotes : Char → Bool) (text : List Char) :
    ∃ cuts, Behind false delims quotes text cuts := by
  induction hlength : text.length using Nat.strong_induction_on generalizing text with
  | h n ih =>
      cases text with
      | nil => exact ⟨[], .nil⟩
      | cons d text =>
          obtain ⟨word, rest, hword⟩ := exists_word delims quotes text
          have hlt : rest.length < n := by
            have hlengths := congrArg List.length hword.append
            rw [List.length_append] at hlengths
            rw [List.length_cons] at hlength
            omega
          obtain ⟨cuts, hcuts⟩ := ih rest.length hlt rest rfl
          exact ⟨(d, word) :: cuts, .cons hword hcuts⟩

/-- All texts can be cut, with sections that a backslash does not close. -/
theorem exists_cuts (delims quotes : Char → Bool) (text : List Char) :
    ∃ word cuts, Cuts false delims quotes text word cuts := by
  obtain ⟨word, rest, hword⟩ := exists_word delims quotes text
  obtain ⟨cuts, hcuts⟩ := exists_behind delims quotes rest
  exact ⟨word, cuts, rest, hword, hcuts⟩

theorem yields_of_cuts (h : Cuts false delims quotes text word cuts) :
    Yields (fun _ => nextQuoted .none delims quotes) 0 (.ofString text)
      (nonEmpty (word :: cuts.map Prod.snd)) := by
  obtain ⟨rest, hword, hbehind⟩ := h
  rw [nonEmpty_cons]
  exact yields_word rfl rfl hword (yields_words hbehind) 0 text

theorem yields_all_of_cuts (h : Cuts false delims quotes text word cuts) :
    Yields (fun _ => nextQuoted .delimsAndEmptyTokens delims quotes) 0 (.ofString text)
      (word :: cuts.flatMap fun cut => [[cut.1], cut.2]) := by
  obtain ⟨rest, hword, hbehind⟩ := h
  have hfirst := Yields.token (fullNext_word rfl hword (.inl rfl) text) (yields_all hbehind 1 text)
  rw [hword.token] at hfirst
  exact hfirst

/-- The words of every text are yielded, where a section that a backslash has opened does not
end. -/
theorem nextQuoted_yieldsWords (delims quotes : Char → Bool) (text : List Char) :
    YieldsWords false delims quotes text := by
  obtain ⟨word, cuts, hcuts⟩ := exists_cuts delims quotes text
  refine ⟨word, cuts, hcuts, ?_, yields_of_cuts hcuts, yields_all_of_cuts hcuts⟩
  obtain ⟨rest, hword, hbehind⟩ := hcuts
  rw [hbehind.append, ← hword.append]

/-- With the backslash for a quote `\a\,b` is one token. -/
theorem not_yieldsWords_backslash :
    ¬ YieldsWords true (· == ',') (· == '\\') ['\\', 'a', '\\', ',', 'b'] := by
  rintro ⟨word, cuts, hcuts, -, hyields, -⟩
  have hclosed : Cuts true (· == ',') (· == '\\') ['\\', 'a', '\\', ',', 'b'] ['\\', 'a', '\\']
      [(',', ['b'])] :=
    ⟨[',', 'b'], .quote rfl rfl (.char (by decide) (by decide) (.close (.inr rfl))) (.delim rfl),
      .cons (.char rfl rfl .nil) .nil⟩
  have hopen : Cuts false (· == ',') (· == '\\') ['\\', 'a', '\\', ',', 'b']
      ['\\', 'a', '\\', ',', 'b'] [] :=
    ⟨[], .quote rfl rfl (.char (by decide) (by decide) (.pair (.inr rfl)
      (.char (by decide) (by decide) .unclosed))) .nil, .nil⟩
  obtain ⟨rfl, rfl⟩ := hcuts.unique hclosed
  exact absurd (hyields.unique (yields_of_cuts hopen)) (by decide)

end Webpp.Text.Tokenizer

/-!
## Without quotes

The tokenizer is the text from the end of its last token on. Every operation moves it
forward over the text, or leaves it where it is.
-/

namespace Webpp.Text.StringTokenizer

/-- `skip(chars)`. -/
def skip (chars : Char → Bool) (rest : List Char) : List Char := rest.dropWhile chars

/-- `expect(allowed_chars)`: the token, which is empty where nothing is found, and what
follows it. -/
def expect (allowedChars : Char → Bool) (rest : List Char) : List Char × List Char :=
  (rest.takeWhile allowedChars, rest.dropWhile allowedChars)

/-- `next(delims)`: the token behind the delimiters, and what follows it. Where nothing is
behind them, the tokenizer stays before them. -/
def next (delims : Char → Bool) (rest : List Char) : Option (List Char × List Char) :=
  match rest.dropWhile delims with
  | [] => none
  | c :: cs => some ((c :: cs).takeWhile fun c => !delims c, (c :: cs).dropWhile fun c => !delims c)

theorem next_suffix {delims : Char → Bool} {rest : List Char} {r : List Char × List Char}
    (h : next delims rest = some r) : r.2 <:+ rest := by
  rw [next] at h
  split at h
  · cases h
  · rename_i c cs hdrop
    cases h
    rw [← hdrop]
    exact (List.dropWhile_suffix _).trans (List.dropWhile_suffix _)

end Webpp.Text.StringTokenizer
