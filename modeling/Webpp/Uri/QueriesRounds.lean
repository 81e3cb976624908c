import Webpp.Text.Fields
import Webpp.Uri.ParseUri

/-!
# The rounds of the query parser

What one round of `parse_queries` does in a context of strings and in a segregated
one, character by character. In the first a round encodes beyond `=` and `&`; the
loop is the same when these end a round (`queriesStep_plain`).
-/

namespace Webpp.Uri

open ComponentEncoder Loop Webpp.Text

variable {σ : Type} {s : QueriesState σ} {c : Char} {t : QueriesState Segregated} {o : Options}

/-! ## Rounds at one character -/

/-- Encoded text goes to the pair in progress of a map, and to the output otherwise. -/
def putQuery (O : Output σ) (chars : List Char) (s : QueriesState σ) : QueriesState σ :=
  if isMap O .queries then
    let buffer := s.encoder.buffer
    let buffer := if s.inValue then (buffer.1, buffer.2 ++ chars)
      else (buffer.1 ++ chars, buffer.2)
    { s with encoder := { s.encoder with buffer := buffer } }
  else { s with encoder := appendTo O .queries chars s.encoder }

def QueriesState.setPos (s : QueriesState σ) (pos : List Char) : QueriesState σ :=
  { s with encoder := s.encoder.setPos pos }

def QueriesState.pos (s : QueriesState σ) : List Char := s.encoder.ctx.pos

/-- An output that stores the text put into it. -/
structure StoresQuery (O : Output σ) : Prop where
  isModifiable : O.isModifiable = true
  put_nil : ∀ s, putQuery O [] s = s
  put_append : ∀ s chars chars' pos, putQuery O chars' ((putQuery O chars s).setPos pos) =
    (putQuery O (chars ++ chars') s).setPos pos

theorem stringOutput_storesQuery : StoresQuery stringOutput where
  isModifiable := rfl
  put_nil s := by
    simp [putQuery, isMap, stringOutput, appendTo, setOut]
  put_append s chars chars' pos := by
    simp [putQuery, isMap, stringOutput, appendTo, setOut, QueriesState.setPos, setPos]

theorem segregatedOutput_storesQuery : StoresQuery segregatedOutput where
  isModifiable := rfl
  put_nil s := by
    cases s with
    | mk e inValue => cases inValue <;> simp [putQuery, isMap, segregatedOutput]
  put_append s chars chars' pos := by
    cases s with
    | mk e inValue =>
        cases inValue <;>
          simp [putQuery, isMap, segregatedOutput, QueriesState.setPos, setPos]

/-- What a round does after the encoding. -/
def queriesAtStop (o : Options) (O : Output σ) (s : QueriesState σ) :
    Run (Flow (QueriesState σ) (QueriesExit σ)) :=
  match s.pos with
  | [] => .ok (.done (.broke s))
  | c :: _ => queriesSwitch o O s c

section Rounds

variable {O : Output σ} (hO : StoresQuery O) (o : Options) (set : AsciiBitmap)
include hO

theorem encodeOrValidateMap_eq {invalid : AsciiBitmap}
    {chars rest : List Char} (hw : encodeUriComponent set invalid s.pos = (chars, rest)) :
    encodeOrValidateMap O .queries set invalid s.inValue s.encoder =
      (rest.isEmpty, ((putQuery O chars s).setPos rest).encoder) := by
  rw [QueriesState.pos] at hw
  cases hmap : isMap O .queries with
  | true =>
      simp [encodeOrValidateMap, putQuery, hmap, hO.isModifiable, hw, QueriesState.setPos]
  | false =>
      simp [encodeOrValidateMap, encodeOrValidate, putQuery, hmap, hO.isModifiable, hw,
        QueriesState.setPos]

omit hO in
theorem putQuery_eta (chars rest : List Char) (s : QueriesState σ) :
    { s with encoder := ((putQuery O chars s).setPos rest).encoder } =
      (putQuery O chars s).setPos rest := by
  rw [putQuery]
  split <;> rfl

theorem queriesStep_eq {chars rest : List Char}
    (hw : encodeUriComponent set (queriesInteresting O) s.pos = (chars, rest)) :
    queriesStep o O set s = queriesAtStop o O ((putQuery O chars s).setPos rest) := by
  simp only [queriesStep, encodeOrValidateMap_eq hO set hw, putQuery_eta]
  cases rest with
  | nil => rfl
  | cons c rest => rfl

theorem queriesStep_nil (h : s.pos = []) :
    queriesStep o O set s = .ok (.done (.broke s)) := by
  have hw : encodeUriComponent set (queriesInteresting O) s.pos = ([], s.pos) := by
    rw [h]
    rfl
  rw [queriesStep_eq hO o set hw, hO.put_nil, queriesAtStop]
  have hpos : (s.setPos s.pos).pos = [] := h
  rw [hpos]
  rfl

theorem queriesStep_interesting {pos : List Char}
    (h : s.pos = c :: pos) (hc : (queriesInteresting O).contains c = true) :
    queriesStep o O set s = queriesSwitch o O s c := by
  have hw : encodeUriComponent set (queriesInteresting O) s.pos = ([], s.pos) := by
    rw [h, encodeUriComponent, if_pos hc]
  rw [queriesStep_eq hO o set hw, hO.put_nil, queriesAtStop]
  have hpos : (s.setPos s.pos).pos = c :: pos := h
  rw [hpos]
  rfl

theorem queriesStep_plain {pos : List Char}
    (h : s.pos = c :: pos) (hc : (queriesInteresting O).contains c = false) :
    queriesStep o O set s =
      queriesStep o O set ((putQuery O (encodeUriChar set c) s).setPos pos) := by
  have hw : encodeUriComponent set (queriesInteresting O) s.pos =
      (encodeUriChar set c ++ (encodeUriComponent set (queriesInteresting O) pos).1,
        (encodeUriComponent set (queriesInteresting O) pos).2) := by
    rw [h, encodeUriComponent, if_neg (by rw [hc]; exact Bool.false_ne_true)]
  have hw' : encodeUriComponent set (queriesInteresting O)
      ((putQuery O (encodeUriChar set c) s).setPos pos).pos =
      ((encodeUriComponent set (queriesInteresting O) pos).1,
        (encodeUriComponent set (queriesInteresting O) pos).2) := rfl
  rw [queriesStep_eq hO o set hw, queriesStep_eq hO o set hw', hO.put_append]
  rfl

end Rounds

/-! ## Several rounds -/

/-- Some rounds lead from `s` to `s'`. -/
abbrev Leads (o : Options) (O : Output σ) (set : AsciiBitmap) (s s' : QueriesState σ) :
    Prop :=
  LeadsTo (queriesStep o O set) .diverges (fun s => s.pos.length) s s'

/-- The loop ends with `r`. -/
abbrev Ends (o : Options) (O : Output σ) (set : AsciiBitmap) (s : QueriesState σ)
    (r : Run (QueriesExit σ)) : Prop :=
  EndsWith (queriesStep o O set) .diverges (fun s => s.pos.length) s r

/-! ## What a round does to the text and to the map -/

theorem nextQuery_segregated (e : ComponentEncoder Segregated) :
    (nextQuery segregatedOutput .queries e).ctx.pos = e.ctx.pos ∧
      (nextQuery segregatedOutput .queries e).ctx.out.queries =
        (if isFilled e.buffer then emplaceNew e.ctx.out.queries e.buffer
          else e.ctx.out.queries) ∧
      (nextQuery segregatedOutput .queries e).buffer = ([], []) := by
  have hmap : isMap segregatedOutput .queries = true := rfl
  have hfilled : isFilled e.buffer = true ↔ e.buffer.1 ≠ [] ∨ e.buffer.2 ≠ [] := by
    simp [isFilled]
  rw [nextQuery, hmap]
  by_cases h : e.buffer.1 ≠ [] ∨ e.buffer.2 ≠ []
  · simp only [if_true, if_pos h, hfilled.mpr h]
    exact ⟨rfl, rfl, rfl⟩
  · simp only [if_true, if_neg h, Bool.eq_false_iff.mpr (hfilled.not.mpr h),
      Bool.false_eq_true, if_false]
    exact ⟨rfl, rfl, rfl⟩

def QueriesState.text (s : QueriesState Strings) : List Char := s.encoder.ctx.out .queries

def QueriesState.pairs (t : QueriesState Segregated) : List (List Char × List Char) :=
  t.encoder.ctx.out.queries

/-- The round passes over a character and adds `chars` to the text. -/
structure Writes (o : Options) (set : AsciiBitmap) (s : QueriesState Strings)
    (rest chars : List Char) (s' : QueriesState Strings) : Prop where
  leads : Leads o stringOutput set s s'
  pos : s'.pos = rest
  text : s'.text = s.text ++ chars

/-- The round passes over a character and leaves the map in the given state. -/
structure Fills (o : Options) (set : AsciiBitmap) (t : QueriesState Segregated)
    (rest : List Char) (pairs : List (List Char × List Char)) (buffer : List Char × List Char)
    (inValue : Bool) (t' : QueriesState Segregated) : Prop where
  leads : Leads o segregatedOutput set t t'
  pos : t'.pos = rest
  pairs : t'.pairs = pairs
  buffer : t'.encoder.buffer = buffer
  inValue : t'.inValue = inValue

/-- The characters at which the loop over a text stops. -/
def isTextStop (c : Char) : Bool := ['#', '%', '\r', '\n', '\t', '\x00'].contains c

theorem interesting_of_isTextStop {O : Output σ} (h : isTextStop c = true) :
    (queriesInteresting O).contains c = true := by
  have hmem : c ∈ ['#', '%', '\r', '\n', '\t', '\x00'] := List.contains_iff_mem.mp h
  have hall : ∀ c ∈ ['#', '%', '\r', '\n', '\t', '\x00'],
      (queriesInteresting O).contains c = true := by
    unfold queriesInteresting
    split <;> decide
  exact hall c hmem

theorem not_interesting_text (h : isTextStop c = false) :
    (queriesInteresting stringOutput).contains c = false := by
  rw [AsciiBitmap.contains]
  exact Bool.and_eq_false_imp.mpr fun _ => h

theorem not_interesting_map (h : isTextStop c = false) (heq : c ≠ '=')
    (hamp : c ≠ '&') : (queriesInteresting segregatedOutput).contains c = false := by
  have hmem : c ∉ ['#', '%', '\r', '\n', '\t', '\x00'] := fun hmem =>
    Bool.false_ne_true (h.symm.trans (List.contains_iff_mem.mpr hmem))
  by_contra hc
  have := mem_of_asciiBitmap_contains (Bool.not_eq_false _ ▸ hc)
  simp at this hmem
  tauto

section Text

variable (o : Options) (set : AsciiBitmap)

theorem writes_plain {s : QueriesState Strings} {pos : List Char}
    (h : s.pos = c :: pos) (hc : isTextStop c = false) :
    ∃ s', Writes o set s pos (encodeUriChar set c) s' := by
  refine ⟨(putQuery stringOutput (encodeUriChar set c) s).setPos pos, ?_, rfl, ?_⟩
  · refine leadsTo_of_eq (queriesStep_plain stringOutput_storesQuery o set h
      (not_interesting_text hc)) ?_
    rw [h]
    exact Nat.lt_succ_self _
  · simp [QueriesState.text, QueriesState.setPos, putQuery, isMap, stringOutput, appendTo]

theorem fills_plain {pos : List Char}
    (h : t.pos = c :: pos) (hc : isTextStop c = false) (heq : c ≠ '=') (hamp : c ≠ '&') :
    ∃ t', Fills o set t pos t.pairs
      (if t.inValue then (t.encoder.buffer.1, t.encoder.buffer.2 ++ encodeUriChar set c)
        else (t.encoder.buffer.1 ++ encodeUriChar set c, t.encoder.buffer.2)) t.inValue t' := by
  refine ⟨(putQuery segregatedOutput (encodeUriChar set c) t).setPos pos, ?_, rfl, rfl, rfl,
    rfl⟩
  refine leadsTo_of_eq (queriesStep_plain segregatedOutput_storesQuery o set h
    (not_interesting_map hc heq hamp)) ?_
  rw [h]
  exact Nat.lt_succ_self _

theorem fills_eq {pos : List Char} (h : t.pos = '=' :: pos) :
    ∃ t', Fills o set t pos t.pairs
      (if t.inValue then (t.encoder.buffer.1, t.encoder.buffer.2 ++ ['=']) else
        t.encoder.buffer) true t' := by
  have hstep := queriesStep_interesting segregatedOutput_storesQuery o set h (by decide)
  have hpos : t.encoder.ctx.pos = '=' :: pos := h
  cases hin : t.inValue with
  | true =>
      refine ⟨⟨{ t.encoder with
        buffer := (t.encoder.buffer.1, t.encoder.buffer.2 ++ ['=']) }.setPos pos, true⟩,
        leadsTo_of_next ?_ ?_, rfl, rfl, rfl, rfl⟩
      · rw [hstep]
        simp [queriesSwitch, hin, appendQueryValue, isMap, segregatedOutput, hpos, ok_bind]
      · rw [h]
        exact Nat.lt_succ_self _
  | false =>
      refine ⟨⟨(t.encoder.setPos pos).resetBegin, true⟩, leadsTo_of_next ?_ ?_, rfl, rfl, rfl,
        rfl⟩
      · rw [hstep]
        simp [queriesSwitch, hin, skipSeparator, setQueryName, isSeg, isMap, segregatedOutput,
          hpos]
      · rw [h]
        exact Nat.lt_succ_self _

theorem fills_amp {pos : List Char} (h : t.pos = '&' :: pos) :
    ∃ t', Fills o set t pos
      (if isFilled t.encoder.buffer then emplaceNew t.pairs t.encoder.buffer else t.pairs)
      ([], []) false t' := by
  have hstep := queriesStep_interesting segregatedOutput_storesQuery o set h (by decide)
  have hpos : t.encoder.ctx.pos = '&' :: pos := h
  have hnext := nextQuery_segregated (t.encoder.setPos pos)
  refine ⟨⟨nextQuery segregatedOutput .queries (t.encoder.setPos pos), false⟩,
    leadsTo_of_next ?_ ?_, hnext.1, hnext.2.1, hnext.2.2, rfl⟩
  · rw [hstep]
    simp [queriesSwitch, skipSeparator, setQueryValue, isSeg, isMap, segregatedOutput, hpos]
  · rw [h]
    exact Nat.lt_of_le_of_lt (Nat.le_of_eq (congrArg List.length hnext.1))
      (Nat.lt_succ_self _)

end Text

/-- The characters that are ignored, kept or refused, depending on the options. -/
def isQuestionable (o : Options) (c : Char) : Bool :=
  isTabOrNewline c || (c == '\x00' && !o.eofIsValid)

theorem isTextStop_of_isQuestionable (h : isQuestionable o c = true) : isTextStop c = true := by
  simp [isQuestionable, isTabOrNewline] at h
  rcases h with ((rfl | rfl) | rfl) | ⟨rfl, _⟩ <;> decide

theorem queriesSwitch_questionable {O : Output σ}
    (h : isQuestionable o c = true) (s : QueriesState σ) :
    queriesSwitch o O s c = queriesTab o O s := by
  simp [isQuestionable, isTabOrNewline] at h
  rcases h with ((rfl | rfl) | rfl) | ⟨rfl, he⟩
  · rfl
  · rfl
  · rfl
  · simp [queriesSwitch, he]

section Both

variable {O : Output σ} (hO : StoresQuery O) {o : Options} (set : AsciiBitmap)
include hO

theorem queriesStep_questionable {pos : List Char}
    (h : s.pos = c :: pos) (hc : isQuestionable o c = true) :
    queriesStep o O set s = queriesTab o O s := by
  rw [queriesStep_interesting hO o set h
    (interesting_of_isTextStop (isTextStop_of_isQuestionable hc)),
    queriesSwitch_questionable hc]

theorem leads_of_ignored {pos : List Char} (h : s.pos = c :: pos) (hc : isQuestionable o c = true)
    (hi : o.ignoreTabsOrNewlines = true) :
    ∃ s', Leads o O set s s' ∧ s'.pos = pos ∧ s'.encoder.ctx.out = s.encoder.ctx.out ∧
      s'.encoder.buffer = s.encoder.buffer ∧ s'.inValue = s.inValue := by
  have hpos : s.encoder.ctx.pos = c :: pos := h
  refine ⟨{ s with encoder := (s.encoder.setWarning .invalidCharacter).setPos pos },
    leadsTo_of_next ?_ ?_, rfl, rfl, rfl, rfl⟩
  · rw [queriesStep_questionable hO set h hc]
    simp [queriesTab, hi, ignoreCharacter, ComponentEncoder.setWarning, hpos]
  · rw [h]
    exact Nat.lt_succ_self _

theorem ends_of_refused {pos : List Char} (h : s.pos = c :: pos) (hc : isQuestionable o c = true)
    (hi : o.ignoreTabsOrNewlines = false) (ha : o.allowInvalidCharacters = false) :
    ∃ ctx, Ends o O set s (.ok (.returned ctx)) ∧ ctx.out = s.encoder.ctx.out := by
  refine ⟨s.encoder.ctx.setError .invalidQueriesCharacter, endsWith_of_done ?_, rfl⟩
  rw [queriesStep_questionable hO set h hc, queriesTab, hi, queriesDefault, ha]
  rfl

/-- The text of an escape is stored, and the parse goes on if the escape is valid or
invalid characters are allowed. -/
theorem queriesStep_escape {pos : List Char} (h : s.pos = '%' :: pos) :
    queriesStep o O set s =
      percentEscape o.ignoreTabsOrNewlines ('%' :: pos) >>= fun r =>
        let e := (store O .queries r.1 s.encoder).setPos r.2.1
        if r.2.2 then pure (.next { s with encoder := e })
        else if o.allowInvalidCharacters then
          pure (.next { s with encoder := e.setWarning .invalidCharacter })
        else pure (.done (.returned (e.ctx.setError .invalidQueriesCharacter))) := by
  have hpos : s.encoder.ctx.pos = '%' :: pos := h
  rw [queriesStep_interesting hO o set h (interesting_of_isTextStop (by decide))]
  simp only [queriesSwitch, validatePercentEncode, hpos, bind_assoc, pure_bind]

theorem leads_of_escape {pos : List Char} (h : s.pos = '%' :: pos)
    {r : List Char × List Char × Bool}
    (hr : percentEscape o.ignoreTabsOrNewlines ('%' :: pos) = .ok r)
    (hgo : r.2.2 = true ∨ o.allowInvalidCharacters = true) :
    ∃ s', Leads o O set s s' ∧ s'.pos = r.2.1 ∧
      s'.encoder.ctx.out = (store O .queries r.1 s.encoder).ctx.out ∧
      s'.encoder.buffer = (store O .queries r.1 s.encoder).buffer ∧
      s'.inValue = s.inValue := by
  have hlen : r.2.1.length < s.pos.length := by
    rw [h]
    exact Nat.lt_succ_of_le (percentEscape_spec hr).2
  have hstep := queriesStep_escape (o := o) hO set h
  rw [hr, ok_bind] at hstep
  cases hv : r.2.2 with
  | true =>
      simp only [hv, if_true] at hstep
      exact ⟨_, leadsTo_of_next hstep hlen, rfl, rfl, rfl, rfl⟩
  | false =>
      have ha : o.allowInvalidCharacters = true := by simpa [hv] using hgo
      simp only [hv, ha, Bool.false_eq_true, if_false, if_true] at hstep
      exact ⟨_, leadsTo_of_next hstep hlen, rfl, rfl, rfl, rfl⟩

theorem ends_of_escape {pos : List Char} (h : s.pos = '%' :: pos) {r : List Char × List Char × Bool}
    (hr : percentEscape o.ignoreTabsOrNewlines ('%' :: pos) = .ok r)
    (hgo : r.2.2 = false) (ha : o.allowInvalidCharacters = false) :
    ∃ ctx, Ends o O set s (.ok (.returned ctx)) ∧
      ctx.out = (store O .queries r.1 s.encoder).ctx.out := by
  have hstep := queriesStep_escape (o := o) hO set h
  rw [hr, ok_bind] at hstep
  simp only [hgo, ha, Bool.false_eq_true, if_false] at hstep
  exact ⟨_, endsWith_of_done hstep, rfl⟩

theorem ends_of_escape_error {pos : List Char} (h : s.pos = '%' :: pos)
    {e : Fault} (hr : percentEscape o.ignoreTabsOrNewlines ('%' :: pos) = .error e) :
    Ends o O set s (.error e) := by
  have hstep := queriesStep_escape (o := o) hO set h
  rw [hr, error_bind] at hstep
  exact endsWith_of_error hstep

/-- The loop leaves off at a `#`, and at a `\0` where that is an end of the text. -/
theorem ends_of_stop {pos : List Char} (h : s.pos = c :: pos)
    (hc : c = '#' ∨ c = '\x00' ∧ o.eofIsValid = true) :
    ∃ s', Ends o O set s (.ok (.broke s')) ∧ s'.pos = c :: pos ∧
      (s'.encoder.ctx.out = s.encoder.ctx.out ∨
        s'.encoder.ctx.out = O.clear .fragment s.encoder.ctx.out) ∧
      s'.encoder.buffer = s.encoder.buffer ∧ s'.inValue = s.inValue := by
  rcases hc with rfl | ⟨rfl, he⟩
  · have hstep := queriesStep_interesting hO o set h (interesting_of_isTextStop (by decide))
    exact ⟨_, endsWith_of_done hstep, h, .inr rfl, rfl, rfl⟩
  · have hstep := queriesStep_interesting hO o set h (interesting_of_isTextStop (by decide))
    simp only [queriesSwitch, he, if_true] at hstep
    exact ⟨_, endsWith_of_done hstep, h, .inl rfl, rfl, rfl⟩

end Both

theorem ends_of_stop_both (set : AsciiBitmap) {s : QueriesState Strings}
    {pos : List Char} (hs : s.pos = c :: pos)
    (ht : t.pos = c :: pos) (hc : c = '#' ∨ c = '\x00' ∧ o.eofIsValid = true) :
    ∃ s' t', Ends o stringOutput set s (.ok (.broke s')) ∧
      Ends o segregatedOutput set t (.ok (.broke t')) ∧ t'.pos = s'.pos ∧
      s'.text = s.text ∧ t'.pairs = t.pairs ∧ t'.encoder.buffer = t.encoder.buffer ∧
      t'.inValue = t.inValue := by
  obtain ⟨s', hs', hspos, hsout, -, -⟩ := ends_of_stop stringOutput_storesQuery set hs hc
  obtain ⟨t', ht', htpos, htout, htbuf, htin⟩ :=
    ends_of_stop segregatedOutput_storesQuery set ht hc
  refine ⟨s', t', hs', ht', htpos.trans hspos.symm, ?_, ?_, htbuf, htin⟩
  · rw [QueriesState.text]
    rcases hsout with hsout | hsout <;> rw [hsout]
    · rfl
    · simp [stringOutput, QueriesState.text]
  · rw [QueriesState.pairs]
    rcases htout with htout | htout <;> rw [htout] <;> rfl

/-- A kept character goes to the text and not to the map. -/
theorem writes_kept (set : AsciiBitmap) {s : QueriesState Strings}
    {pos : List Char} (h : s.pos = c :: pos) (hc : isQuestionable o c = true)
    (hi : o.ignoreTabsOrNewlines = false) (ha : o.allowInvalidCharacters = true) :
    ∃ s', Writes o set s pos [c] s' := by
  have hpos : s.encoder.ctx.pos = c :: pos := h
  have hstep := queriesStep_questionable stringOutput_storesQuery set h hc
  simp [queriesTab, hi, queriesDefault, ha, skipSeparator, ComponentEncoder.setWarning, hpos]
    at hstep
  refine ⟨_, leadsTo_of_next hstep ?_, rfl, ?_⟩
  · rw [h]
    exact Nat.lt_succ_self _
  · simp [QueriesState.text, stringOutput, isSeg, isVec, isMap, appendTo]

theorem fills_kept (set : AsciiBitmap)
    {pos : List Char} (h : t.pos = c :: pos) (hc : isQuestionable o c = true)
    (hi : o.ignoreTabsOrNewlines = false) (ha : o.allowInvalidCharacters = true) :
    ∃ t', Fills o set t pos t.pairs t.encoder.buffer t.inValue t' := by
  have hpos : t.encoder.ctx.pos = c :: pos := h
  have hstep := queriesStep_questionable segregatedOutput_storesQuery set h hc
  simp [queriesTab, hi, queriesDefault, ha, skipSeparator, ComponentEncoder.setWarning, hpos]
    at hstep
  refine ⟨_, leadsTo_of_next hstep ?_, rfl, rfl, rfl, rfl⟩
  rw [h]
  exact Nat.lt_succ_self _

end Webpp.Uri
