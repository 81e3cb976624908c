import Webpp.Uri.PresetPaths

/-!
# Queries and fragments under two presets

The second digit of an escape, which the strict preset leaves to the next round, is stored by
it all the same. Only the map of a segregated context of strings takes it for a character of
its own, so that the texts of its queries are to have no escapes (`parseQueries_alike`).
-/

namespace Webpp.Uri

open ComponentEncoder Ctx Loop Webpp.Text

variable {σ : Type} {O : Output σ} {s : QueriesState σ} {text : List Char} {scheme : SchemeType}
  {rest : List Char}

/-! ## Fragments -/

/-- Where a round has found a character to look at. -/
abbrev fragmentStop (O : Output σ) (e : ComponentEncoder σ) : Bool × ComponentEncoder σ :=
  encodeOrValidate O .fragment fragmentEncodeSet (asciiBitmap ['%']) e

/-- What a round does there. -/
def fragmentAt (o : Options) (O : Output σ) (r : Bool × ComponentEncoder σ) :
    Run (Flow (ComponentEncoder σ) (ComponentEncoder σ)) :=
  if r.1 then pure (.done r.2)
  else do
    let c ← deref r.2.ctx.pos
    if c = '%' then do
      let r ← validatePercentEncode O .fragment o.ignoreTabsOrNewlines r.2
      pure (.next (if r.1 then r.2 else r.2.setWarning .invalidCharacter))
    else pure (.next (r.2.setWarning .invalidCharacter))

theorem fragmentStep_eq (o : Options) (O : Output σ) (e : ComponentEncoder σ) :
    fragmentStep o O e = fragmentAt o O (fragmentStop O e) := rfl

/-- The encoders of the two presets in a fragment. -/
structure FragmentLevel (O : Output σ) (e₁ e₂ : ComponentEncoder σ) : Prop where
  stop : fragmentStop O e₁ = fragmentStop O e₂
  untabbed : Untabbed e₁.ctx.pos

theorem fragmentLevel_escape (happend : O.Appends) {r : ComponentEncoder σ} {c d : Char}
    (hun : Untabbed rest) (hd : isHexDigit d = true) :
    FragmentLevel O ((store O .fragment ['%', c, d] r).setPos rest)
      ((store O .fragment ['%', c] r).setPos (d :: rest)) := by
  refine ⟨encodeOrValidate_pending happend ?_ ?_ ?_ ['%', c] rest r, hun⟩
  · exact fun _ => Bool.and_false _
  · exact not_contains_of_isHexDigit (by decide) hd
  · exact not_contains_of_isHexDigit (by decide) hd

theorem fragmentAt_alike (happend : O.Appends) {r : Bool × ComponentEncoder σ}
    (hun : Untabbed r.2.ctx.pos) {f₁ f₂ : Flow (ComponentEncoder σ) (ComponentEncoder σ)}
    (h₁ : fragmentAt standardUriParsingOptions O r = .ok f₁)
    (h₂ : fragmentAt strictUriParsingOptions O r = .ok f₂) :
    FlowRelated (FragmentLevel O) (fun r₁ r₂ => r₁ = r₂) f₁ f₂ ∨
      FlowLeads (fragmentStep standardUriParsingOptions O) .diverges
        (fun e => e.ctx.status.warnings ≠ ∅) f₁ := by
  have hwarned (e : ComponentEncoder σ) :
      FlowLeads (fragmentStep standardUriParsingOptions O) .diverges
        (fun e => e.ctx.status.warnings ≠ ∅) (.next (e.setWarning .invalidCharacter)) := by
    intro n e' he' hclean
    have hfurther := loop_further (fragmentStep_further standardUriParsingOptions O) he'
    exact warnings_setWarning_ne e.ctx .invalidCharacter (hfurther.ctx.clean hclean)
  rw [fragmentAt] at h₁ h₂
  cases hend : r.1 with
  | true =>
      rw [if_pos hend] at h₁ h₂
      cases h₁
      cases h₂
      exact .inl (.done rfl)
  | false =>
      rw [if_neg (by rw [hend]; exact Bool.false_ne_true)] at h₁ h₂
      cases hpos : r.2.ctx.pos with
      | nil =>
          rw [hpos] at h₁
          cases h₁
      | cons c rest =>
          rw [hpos] at hun
          rw [hpos, deref_cons, ok_bind] at h₁ h₂
          by_cases hc : c = '%'
          · rw [if_pos hc] at h₁ h₂
            subst hc
            obtain ⟨r₁, he₁, h₁⟩ := exists_of_bind_eq_ok h₁
            obtain ⟨r₂, he₂, h₂⟩ := exists_of_bind_eq_ok h₂
            cases h₁
            cases h₂
            cases hvalid : r₁.1 with
            | false => exact .inr (hwarned r₁.2)
            | true =>
                obtain ⟨c, d, rest', rfl, hc, hd, rfl, rfl⟩ :=
                  validatePercentEncode_alike hpos hun.tail he₁ hvalid he₂
                exact .inl (.next (fragmentLevel_escape happend hun.tail.tail.tail hd))
          · rw [if_neg hc] at h₁
            cases h₁
            exact .inr (hwarned r.2)

theorem fragmentStop_suffix (O : Output σ) (e : ComponentEncoder σ) :
    (fragmentStop O e).2.ctx.pos <:+ e.ctx.pos :=
  (encodeOrValidate_further O .fragment e fragmentEncodeSet (asciiBitmap ['%'])).ctx.pos

theorem fragment_loop_end {o : Options} {n : ℕ} {e e' : ComponentEncoder σ}
    (h : loop (fragmentStep o O) .diverges n e = .ok e') : e'.ctx.pos = [] := by
  refine loop_done (fun _ => True) (fun e => e.ctx.pos = []) (fun _ _ _ _ => trivial)
    (fun e e' _ hround => ?_) trivial h
  obtain ⟨hmoved, hempty⟩ := encodeOrValidate_movedTo O .fragment fragmentEncodeSet
    (asciiBitmap ['%']) e
  rw [← hmoved.pos] at hempty
  rw [fragmentStep_eq, fragmentAt] at hround
  split at hround
  · rename_i hend
    cases hround
    rw [fragmentStop, hempty] at hend
    exact List.isEmpty_iff.mp hend
  · have hnext : Partly (FlowSat (fun _ => True) (fun _ => False)) (.ok (.done e') :
        Run (Flow (ComponentEncoder σ) (ComponentEncoder σ))) := by
      rw [← hround]
      refine (deref_any _).bind fun c _ => ?_
      split
      · exact (validatePercentEncode_further O .fragment _ o.ignoreTabsOrNewlines).bind
          fun r _ => trivial
      · trivial
    exact hnext.elim

theorem parseFragment_alike (happend : O.Appends) {ctx a₁ a₂ : Ctx σ} (hun : Untabbed ctx.pos)
    (h₁ : parseFragment standardUriParsingOptions O ctx = .ok a₁)
    (hclean : a₁.status.warnings = ∅)
    (h₂ : parseFragment strictUriParsingOptions O ctx = .ok a₂) :
    a₁ = a₂ ∧ a₁.status.value = .valid ∧ a₁.pos = [] := by
  rw [parseFragment, if_pos (by decide : standardUriParsingOptions.parseFragment = true)] at h₁
  rw [parseFragment, if_pos (by decide : strictUriParsingOptions.parseFragment = true)] at h₂
  by_cases hnil : ctx.pos = []
  · rw [if_pos hnil] at h₁ h₂
    cases h₁
    cases h₂
    exact ⟨rfl, rfl, hnil⟩
  · rw [if_neg hnil] at h₁ h₂
    obtain ⟨e₁, he₁, h₁⟩ := exists_of_bind_eq_ok h₁
    obtain ⟨e₂, he₂, h₂⟩ := exists_of_bind_eq_ok h₂
    have hlockstep := loop_lockstep (FragmentLevel O)
      (fun e₁ e₂ => e₁ = e₂ ∨ e₁.ctx.status.warnings ≠ ∅)
      (fun e₁ e₂ f₁ f₂ hlevel hf₁ hf₂ => ?_) ⟨rfl, hun⟩ he₁ he₂
    · cases h₁
      cases h₂
      rcases hlockstep with rfl | hwarned
      · refine ⟨rfl, rfl, ?_⟩
        exact (setValue_movedTo O .fragment e₁).pos.trans (fragment_loop_end he₁)
      · have hset := (setValue_further O .fragment e₁).ctx
        exact absurd (hset.clean hclean) hwarned
    · rw [fragmentStep_eq] at hf₁ hf₂
      rw [← hlevel.stop] at hf₂
      rcases fragmentAt_alike happend
        (hlevel.untabbed.of_suffix (fragmentStop_suffix O e₁)) hf₁ hf₂ with
        hrelated | hleads
      · exact .inl (hrelated.mono fun r r' => .inl)
      · exact .inr (.inl (hleads.mono fun r hr r' => .inr hr))

/-! ## Queries -/

/-- No escape is in front of the fragment. -/
def NoEscape (text : List Char) : Prop := '%' ∉ text.takeWhile (· ≠ '#')

/-- What is passed of the queries. -/
def PassedQueries (text pos : List Char) : Prop := ∃ passed, text = passed ++ pos ∧ '#' ∉ passed

namespace PassedQueries

variable {text pos : List Char}

theorem refl (text : List Char) : PassedQueries text text := ⟨[], rfl, by simp⟩

theorem suffix (h : PassedQueries text pos) : pos <:+ text := by
  obtain ⟨passed, rfl, -⟩ := h
  exact List.suffix_append ..

theorem more (run : List Char) (h : PassedQueries text (run ++ pos)) (hrun : '#' ∉ run) :
    PassedQueries text pos := by
  obtain ⟨passed, rfl, hpassed⟩ := h
  refine ⟨passed ++ run, (List.append_assoc ..).symm, ?_⟩
  rw [List.mem_append, not_or]
  exact ⟨hpassed, hrun⟩

theorem noEscape (h : PassedQueries text pos) (htext : NoEscape text) : NoEscape pos := by
  obtain ⟨passed, rfl, hpassed⟩ := h
  have hsplit : (passed ++ pos).takeWhile (· ≠ '#') = passed ++ pos.takeWhile (· ≠ '#') := by
    rw [List.takeWhile_append_of_pos]
    intro c hc
    exact decide_eq_true fun heq => hpassed (heq ▸ hc)
  rw [NoEscape, hsplit, List.mem_append, not_or] at htext
  exact htext.2

end PassedQueries

/-- Where a round has found a character to look at. -/
abbrev queriesStop (O : Output σ) (encodeSet : AsciiBitmap) (s : QueriesState σ) :
    Bool × ComponentEncoder σ :=
  encodeOrValidateMap O .queries encodeSet (queriesInteresting O) s.inValue s.encoder

/-- What a round does there. -/
def queriesAt (o : Options) (O : Output σ) (inValue : Bool) (r : Bool × ComponentEncoder σ) :
    Run (Flow (QueriesState σ) (QueriesExit σ)) :=
  if r.1 then pure (.done (.broke ⟨r.2, inValue⟩))
  else do
    let c ← deref r.2.ctx.pos
    queriesSwitch o O ⟨r.2, inValue⟩ c

theorem queriesStep_at (o : Options) (O : Output σ) (encodeSet : AsciiBitmap)
    (s : QueriesState σ) :
    queriesStep o O encodeSet s = queriesAt o O s.inValue (queriesStop O encodeSet s) := rfl

/-- The encoders of the two presets in the queries `text`. -/
structure QueriesLevel (O : Output σ) (encodeSet : AsciiBitmap) (text : List Char)
    (s₁ s₂ : QueriesState σ) : Prop where
  stop : queriesStop O encodeSet s₁ = queriesStop O encodeSet s₂
  inValue : s₁.inValue = s₂.inValue
  passed : PassedQueries text s₁.encoder.ctx.pos

theorem QueriesLevel.refl {encodeSet : AsciiBitmap}
    (h : PassedQueries text s.encoder.ctx.pos) : QueriesLevel O encodeSet text s s := ⟨rfl, rfl, h⟩

theorem queriesStop_passed {encodeSet : AsciiBitmap} (h : PassedQueries text s.encoder.ctx.pos) :
    PassedQueries text (queriesStop O encodeSet s).2.ctx.pos := by
  obtain ⟨hmoved, -⟩ := encodeOrValidateMap_movedTo O .queries encodeSet (queriesInteresting O)
    s.inValue s.encoder
  obtain ⟨run, hsplit, hrun, -⟩ := (queriesInteresting O).findFirstIn_spec s.encoder.ctx.pos
  rw [hmoved.pos]
  rw [hsplit] at h
  refine h.more run fun hmem => ?_
  have hhash : (queriesInteresting O).contains '#' = true := by
    rw [queriesInteresting]
    split
    · decide
    · decide
  rw [hrun '#' hmem] at hhash
  cases hhash

/-- A round that goes on in the queries. -/
abbrev QueriesPassed (text : List Char) : Flow (QueriesState σ) (QueriesExit σ) → Prop :=
  FlowSat (fun s => PassedQueries text s.encoder.ctx.pos) (fun _ => False)

section Pairs

variable (o : Options) {text : List Char} {s : QueriesState σ} {rest : List Char}

theorem queriesEq_passed (hpos : s.encoder.ctx.pos = '=' :: rest)
    (hpassed : PassedQueries text ('=' :: rest)) :
    Partly (QueriesPassed text) (queriesSwitch o O s '=') := by
  have hrest : PassedQueries text rest := hpassed.more ['='] (by decide)
  have hbehind (e e' : ComponentEncoder σ) (h : MovedTo rest e.ctx e'.ctx) :
      PassedQueries text e'.ctx.pos := h.pos.symm ▸ hrest
  rw [queriesSwitch]
  split
  · by_cases hmap : isMap O .queries = true
    · exact (appendQueryValue_cons hpos hmap).partly.bind fun e he => hbehind s.encoder e he
    · rw [appendQueryValue, if_neg hmap]
      show PassedQueries text s.encoder.ctx.pos
      rw [hpos]
      exact hpassed
  · have hname : (if O.isSegregated then setQueryName O s.encoder else s.encoder).ctx.pos =
        '=' :: rest := by
      split
      · exact (setQueryName_movedTo O s.encoder).pos.trans hpos
      · exact hpos
    exact (skipSeparator_cons hname).partly.bind fun e he => hbehind _ e he

theorem queriesAmp_passed (hpos : s.encoder.ctx.pos = '&' :: rest)
    (hpassed : PassedQueries text ('&' :: rest)) :
    Partly (QueriesPassed text) (queriesSwitch o O s '&') := by
  have hvalue : (if O.isSegregated then ⟨setQueryValue O s.encoder, false⟩
      else s : QueriesState σ).encoder.ctx.pos = '&' :: rest := by
    split
    · exact (setQueryValue_movedTo O s.encoder).pos.trans hpos
    · exact hpos
  rw [queriesSwitch]
  refine (skipSeparator_cons hvalue).partly.bind fun e he => ?_
  show PassedQueries text (nextQuery O .queries e).ctx.pos
  rw [(nextQuery_movedTo O .queries e).pos, he.pos]
  exact hpassed.more ['&'] (by decide)

end Pairs

theorem queriesLevel_escape (happend : O.Appends)
    {r : ComponentEncoder σ} {c d : Char} (inValue : Bool)
    (hplain : O.isModifiable = true → isMap O .queries = false)
    (hpassed : PassedQueries text ('%' :: c :: d :: rest)) (hc : isHexDigit c = true)
    (hd : isHexDigit d = true) :
    QueriesLevel O (queryPercentEncodeSet scheme) text
      ⟨(store O .queries ['%', c, d] r).setPos rest, inValue⟩
      ⟨(store O .queries ['%', c] r).setPos (d :: rest), inValue⟩ := by
  have hmap (e : ComponentEncoder σ) (set set' : AsciiBitmap) :
      encodeOrValidateMap O .queries set set' inValue e =
        encodeOrValidate O .queries set set' e := by
    rw [encodeOrValidateMap, if_neg]
    intro h
    rw [Bool.and_eq_true] at h
    rw [hplain h.1] at h
    exact Bool.false_ne_true h.2
  have hinteresting : (queriesInteresting O).contains d = false := by
    refine not_contains_of_isHexDigit ?_ hd
    rw [queriesInteresting]
    split
    · decide
    · decide
  have hpolicy : (queryPercentEncodeSet scheme).contains d = false := by
    refine not_contains_of_isHexDigit ?_ hd
    rw [queryPercentEncodeSet]
    split
    · decide
    · decide
  refine ⟨?_, rfl, ?_⟩
  · rw [queriesStop, queriesStop, hmap, hmap]
    exact encodeOrValidate_pending happend hplain hpolicy hinteresting ['%', c] rest r
  · refine PassedQueries.more ['%', c, d] hpassed ?_
    have hcne := ne_of_isHexDigit (d := '#') hc (by decide)
    have hdne := ne_of_isHexDigit (d := '#') hd (by decide)
    simp [hcne.symm, hdne.symm]

/-- The loop is left with an error. -/
def QueriesExit.Failed (exit : QueriesExit σ) : Prop :=
  ∃ ctx : Ctx σ, exit = .returned ctx ∧ ctx.status.hasError = true

/-- The loop is left at the end of the text or in front of a fragment. -/
def QueriesExit.EndsWell : QueriesExit σ → Prop
  | .broke s => s.encoder.ctx.pos = [] ∨ s.encoder.ctx.status.value = .validFragment
  | .returned _ => False

theorem queriesSwitch_default {c : Char} (hc : c ∉ ['#', '%', '=', '&', '\x00', '\r', '\n', '\t']) :
    queriesSwitch strictUriParsingOptions O s c =
      .ok (.done (.returned (s.encoder.ctx.setError .invalidQueriesCharacter))) := by
  rw [queriesSwitch.eq_def]
  split
  · exact absurd (by decide) hc
  · exact absurd (by decide) hc
  · exact absurd (by decide) hc
  · exact absurd (by decide) hc
  · exact absurd (by decide) hc
  · exact absurd (by decide) hc
  · exact absurd (by decide) hc
  · exact absurd (by decide) hc
  · rfl

theorem queriesSwitch_alike (happend : O.Appends)
    (hplain : O.isModifiable = true → isMap O .queries = true → NoEscape text)
    {c : Char} (hpos : s.encoder.ctx.pos = c :: rest)
    (hun : Untabbed (c :: rest)) (hpassed : PassedQueries text (c :: rest))
    {f₁ f₂ : Flow (QueriesState σ) (QueriesExit σ)}
    (h₁ : queriesSwitch standardUriParsingOptions O s c = .ok f₁)
    (h₂ : queriesSwitch strictUriParsingOptions O s c = .ok f₂) :
    FlowRelated (QueriesLevel O (queryPercentEncodeSet scheme) text)
        (fun x₁ x₂ => x₁ = x₂ ∧ x₁.EndsWell) f₁ f₂ ∨
      ∃ exit : QueriesExit σ, exit.Failed ∧ f₂ = .done exit := by
  have hsame (hnext : Partly (QueriesPassed text)
      (.ok f₁ : Run (Flow (QueriesState σ) (QueriesExit σ)))) (heq : f₁ = f₂) :
      FlowRelated (QueriesLevel O (queryPercentEncodeSet scheme) text)
        (fun x₁ x₂ => x₁ = x₂ ∧ x₁.EndsWell) f₁ f₂ := by
    subst heq
    cases f₁ with
    | next s' => exact .next (.refl hnext)
    | done exit => exact hnext.elim
  have hfailed (ctx : Ctx σ) :
      (QueriesExit.returned (ctx.setError .invalidQueriesCharacter)).Failed :=
    ⟨_, rfl, rfl⟩
  by_cases heq : c = '='
  · subst heq
    have hnext := queriesEq_passed (O := O) standardUriParsingOptions hpos hpassed
    rw [h₁] at hnext
    exact .inl (hsame hnext (Except.ok.inj (h₁.symm.trans h₂)))
  by_cases hamp : c = '&'
  · subst hamp
    have hnext := queriesAmp_passed (O := O) standardUriParsingOptions hpos hpassed
    rw [h₁] at hnext
    exact .inl (hsame hnext (Except.ok.inj (h₁.symm.trans h₂)))
  by_cases hother : c ∉ ['#', '%', '=', '&', '\x00', '\r', '\n', '\t']
  · rw [queriesSwitch_default hother] at h₂
    cases h₂
    exact .inr ⟨_, hfailed _, rfl⟩
  rw [queriesSwitch.eq_def] at h₁ h₂
  split at h₁
  · cases h₁
    cases h₂
    exact .inl (.done ⟨rfl, .inr rfl⟩)
  · obtain ⟨r₁, he₁, h₁⟩ := exists_of_bind_eq_ok h₁
    obtain ⟨r₂, he₂, h₂⟩ := exists_of_bind_eq_ok h₂
    cases hvalid : r₂.1 with
    | false =>
        rw [hvalid, if_neg Bool.false_ne_true, if_neg (by decide)] at h₂
        cases h₂
        exact .inr ⟨_, hfailed _, rfl⟩
    | true =>
        have hvalid₁ := validatePercentEncode_standard hpos hun.tail he₁ he₂ hvalid
        rw [hvalid, if_pos rfl] at h₂
        rw [hvalid₁, if_pos rfl] at h₁
        obtain ⟨c, d, rest', rfl, hc, hd, rfl, rfl⟩ :=
          validatePercentEncode_alike hpos hun.tail he₁ hvalid₁ he₂
        cases h₁
        cases h₂
        refine .inl (.next
          (queriesLevel_escape happend s.inValue (fun hmod => ?_) hpassed hc hd))
        cases hmap : isMap O .queries with
        | false => rfl
        | true =>
            have hplain := hpassed.noEscape (hplain hmod hmap)
            exact absurd (by simp) hplain
  · exact absurd rfl heq
  · exact absurd rfl hamp
  · exact absurd rfl hun.head.2
  · exact absurd hun.head.1 (by decide)
  · exact absurd hun.head.1 (by decide)
  · exact absurd hun.head.1 (by decide)
  · refine absurd ?_ hother
    simp only [List.mem_cons, List.not_mem_nil, or_false, not_or]
    exact ⟨‹_›, ‹_›, ‹_›, ‹_›, ‹_›, ‹_›, ‹_›, ‹_›⟩

theorem queriesAt_alike (happend : O.Appends)
    (hplain : O.isModifiable = true → isMap O .queries = true → NoEscape text)
    (hun : Untabbed text) {inValue : Bool} {r : Bool × ComponentEncoder σ}
    (hpassed : PassedQueries text r.2.ctx.pos) (hstop : r.1 = r.2.ctx.pos.isEmpty)
    {f₁ f₂ : Flow (QueriesState σ) (QueriesExit σ)}
    (h₁ : queriesAt standardUriParsingOptions O inValue r = .ok f₁)
    (h₂ : queriesAt strictUriParsingOptions O inValue r = .ok f₂) :
    FlowRelated (QueriesLevel O (queryPercentEncodeSet scheme) text)
        (fun x₁ x₂ => x₁ = x₂ ∧ x₁.EndsWell) f₁ f₂ ∨
      ∃ exit : QueriesExit σ, exit.Failed ∧ f₂ = .done exit := by
  rw [queriesAt] at h₁ h₂
  cases hend : r.1 with
  | true =>
      rw [if_pos hend] at h₁ h₂
      cases h₁
      cases h₂
      rw [hend] at hstop
      exact .inl (.done ⟨rfl, .inl (List.isEmpty_iff.mp hstop.symm)⟩)
  | false =>
      rw [if_neg (by rw [hend]; exact Bool.false_ne_true)] at h₁ h₂
      cases hpos : r.2.ctx.pos with
      | nil =>
          rw [hpos] at h₁
          cases h₁
      | cons c rest =>
          rw [hpos, deref_cons, ok_bind] at h₁ h₂
          rw [hpos] at hpassed
          exact queriesSwitch_alike happend hplain hpos (hun.of_suffix hpassed.suffix) hpassed h₁ h₂

theorem queriesEnd_value
    (hs : s.encoder.ctx.pos = [] ∨ s.encoder.ctx.status.value = .validFragment) :
    Partly (fun a => a.status.value = .valid ∧ a.pos = [] ∨ a.status.value = .validFragment)
      (queriesEnd O s) := by
  have hname : MovedTo s.encoder.ctx.pos s.encoder.ctx (if O.isSegregated then
      if s.inValue then setQueryValue O s.encoder else setQueryName O s.encoder
      else s.encoder).ctx := by
    split
    · split
      · exact setQueryValue_movedTo O s.encoder
      · exact setQueryName_movedTo O s.encoder
    · exact .refl _
  rw [queriesEnd]
  generalize (if O.isSegregated then
    if s.inValue then setQueryValue O s.encoder else setQueryName O s.encoder
    else s.encoder) = e at hname
  have hset := setValue_movedTo O .queries e
  rw [hname.pos] at hset
  have hmoved := hname.trans hset
  generalize ComponentEncoder.setValue O .queries e = e' at hmoved
  simp only
  split
  · rename_i hnil
    have hnext := nextQuery_movedTo O .queries (e'.setValid .valid)
    exact .inl ⟨hnext.value, hnext.pos.trans hnil⟩
  · rename_i hne
    rw [hmoved.pos] at hne
    have hvalue := hmoved.value.trans (hs.resolve_left hne)
    have hlength : 1 ≤ e'.ctx.pos.length := by
      rw [hmoved.pos]
      exact List.length_pos_of_ne_nil hne
    refine (ignoreCharacter_safe hlength).partly.bind fun e'' he => ?_
    exact .inr (((nextQuery_movedTo O .queries e'').value.trans he.value).trans hvalue)

theorem parseQueries_alike (happend : O.Appends) {ctx a₁ a₂ : Ctx σ} (hun : Untabbed ctx.pos)
    (hplain : O.isModifiable = true → isMap O .queries = true → NoEscape ctx.pos)
    (h₁ : parseQueries standardUriParsingOptions O ctx = .ok a₁)
    (h₂ : parseQueries strictUriParsingOptions O ctx = .ok a₂) :
    a₁ = a₂ ∧ (a₁.status.value = .valid ∧ a₁.pos = [] ∨ a₁.status.value = .validFragment) ∨
      a₂.status.hasError = true := by
  by_cases hnil : ctx.pos = []
  · rw [parseQueries, if_pos (by decide), if_pos hnil] at h₁ h₂
    cases h₁
    cases h₂
    exact .inl ⟨rfl, .inl ⟨rfl, hnil⟩⟩
  · rw [parseQueries_eq O (by decide) hnil] at h₁ h₂
    obtain ⟨x₁, hx₁, h₁⟩ := exists_of_bind_eq_ok h₁
    obtain ⟨x₂, hx₂, h₂⟩ := exists_of_bind_eq_ok h₂
    have hlockstep := loop_lockstep
      (QueriesLevel O (queryPercentEncodeSet ctx.scheme) ctx.pos)
      (fun x₁ x₂ => x₁ = x₂ ∧ x₁.EndsWell ∨ x₂.Failed)
      (fun s₁ s₂ f₁ f₂ hlevel hf₁ hf₂ => ?_) (.refl (PassedQueries.refl ctx.pos)) hx₁ hx₂
    · rcases hlockstep with ⟨rfl, hends⟩ | ⟨ctx', rfl, herror⟩
      · refine .inl ⟨Except.ok.inj (h₁.symm.trans h₂), ?_⟩
        cases x₁ with
        | broke s =>
            have hvalue := queriesEnd_value (O := O) hends
            rw [show queriesEnd O s = .ok a₁ from h₁] at hvalue
            exact hvalue
        | returned ctx' => exact hends.elim
      · cases h₂
        exact .inr herror
    · rw [queriesStep_at] at hf₁ hf₂
      rw [← hlevel.stop, ← hlevel.inValue] at hf₂
      have hstop : (queriesStop O (queryPercentEncodeSet ctx.scheme) s₁).1 =
          (queriesStop O (queryPercentEncodeSet ctx.scheme) s₁).2.ctx.pos.isEmpty := by
        obtain ⟨hmoved, hempty⟩ := encodeOrValidateMap_movedTo O .queries
          (queryPercentEncodeSet ctx.scheme) (queriesInteresting O) s₁.inValue s₁.encoder
        rw [hmoved.pos, hempty]
      have hpassed : PassedQueries ctx.pos
          (queriesStop O (queryPercentEncodeSet ctx.scheme) s₁).2.ctx.pos :=
        queriesStop_passed hlevel.passed
      rcases queriesAt_alike happend hplain hun hpassed hstop hf₁ hf₂ with
        hrelated | ⟨exit, hfailed, rfl⟩
      · exact .inl (hrelated.mono fun r r' => .inl)
      · exact .inr (.inr fun r => .inr hfailed)

end Webpp.Uri
