import Webpp.Uri.PresetTexts
import Webpp.Uri.SafePath

/-!
# Paths under two presets

The rounds of `parse_path` under the standard and under the strict preset go side by side as
long as no warning is set (`path_lockstep`). At the end of the text they leave the same; in
front of a `?` or a `#` only the standard preset goes on (`parsePath_alike`).
-/

namespace Webpp.Uri

open ComponentEncoder Ctx Loop Webpp.Text

variable {σ : Type} (O : Output σ) {Shape : ComponentEncoder σ → Prop} {o : Options} {p : List Char}

/-! ## One round -/

/-- Where a round has found a character to look at. -/
abbrev pathStop (e : ComponentEncoder σ) : Bool × ComponentEncoder σ :=
  encodeOrValidate O .path pathEncodeSet (pathInteresting O) e

/-- What a round does there. -/
def pathAt (o : Options) (r : Bool × ComponentEncoder σ) :
    Run (Flow (ComponentEncoder σ) (ComponentEncoder σ)) :=
  if r.1 then pure (.done r.2)
  else do
    let c ← deref r.2.ctx.pos
    pathSwitch o O r.2 c

theorem pathStep_eq (o : Options) (e : ComponentEncoder σ) :
    pathStep o O e = pathAt O o (pathStop O e) := rfl

/-- A round has set a warning. -/
def FlowWarned : Flow (ComponentEncoder σ) (ComponentEncoder σ) → Prop :=
  FlowSat (fun e => e.ctx.status.warnings ≠ ∅) (fun e => e.ctx.status.warnings ≠ ∅)

/-- What a round without a warning leads to under the two presets. -/
inductive PathAlike (r : ComponentEncoder σ) :
    Flow (ComponentEncoder σ) (ComponentEncoder σ) →
      Flow (ComponentEncoder σ) (ComponentEncoder σ) → Prop where
  | finish (h : r.ctx.pos = []) : PathAlike r (.done r) (.done r)
  | tail {c : Char} {rest : List Char} (value : UriStatus) (h : r.ctx.pos = c :: rest)
      (hc : c = '?' ∨ c = '#') : PathAlike r (.done (r.setValid value)) (.done (r.setValid value))
  | slash {rest : List Char} {e : ComponentEncoder σ} (h : r.ctx.pos = '/' :: rest)
      (hslash : pathSlash standardUriParsingOptions O r = .ok (.next e)) :
      PathAlike r (.next e) (.next e)
  | escape {c d : Char} {rest : List Char} (h : r.ctx.pos = '%' :: c :: d :: rest)
      (hc : isHexDigit c = true) (hd : isHexDigit d = true) :
      PathAlike r (.next ((store O .path ['%', c, d] r).setPos rest))
        (.next ((store O .path ['%', c] r).setPos (d :: rest)))

variable {O}

theorem pathSlash_next {e : ComponentEncoder σ}
    {flow : Flow (ComponentEncoder σ) (ComponentEncoder σ)} (h : pathSlash o O e = .ok flow) :
    ∃ e', flow = .next e' := by
  cases flow with
  | next e' => exact ⟨e', rfl⟩
  | done e' =>
      have hnext : Partly (fun flow => ∃ e' : ComponentEncoder σ, flow = Flow.next e')
          (pathSlash o O e) := by
        refine (handleDotsInPaths_further o O e).bind fun r _ => ?_
        split
        · exact (ignoreCharacter_further r.2 1).bind fun e' _ => ⟨_, rfl⟩
        · exact (nextSegmentOf_further O .path r.2 1 '/').bind fun e' _ => ⟨_, rfl⟩
      rw [h] at hnext
      exact hnext

theorem pathSlash_congr {o o' : Options} {e : ComponentEncoder σ}
    (h : handleDotsInPaths o O e = handleDotsInPaths o' O e) :
    pathSlash o O e = pathSlash o' O e := by
  rw [pathSlash, pathSlash, h]

theorem pathAt_alike {r : Bool × ComponentEncoder σ} (hstop : r.1 = r.2.ctx.pos.isEmpty)
    (hun : Untabbed r.2.ctx.pos)
    (hdots : r.2.ctx.pos.head? = some '/' →
      handleDotsInPaths standardUriParsingOptions O r.2 =
        handleDotsInPaths strictUriParsingOptions O r.2)
    {f₁ f₂ : Flow (ComponentEncoder σ) (ComponentEncoder σ)}
    (h₁ : pathAt O standardUriParsingOptions r = .ok f₁)
    (h₂ : pathAt O strictUriParsingOptions r = .ok f₂) :
    FlowWarned f₁ ∨ PathAlike O r.2 f₁ f₂ := by
  cases hpos : r.2.ctx.pos with
  | nil =>
      have hend : r.1 = true := by
        rw [hstop, hpos]
        rfl
      rw [pathAt, if_pos hend] at h₁ h₂
      cases h₁
      cases h₂
      exact .inr (.finish hpos)
  | cons c rest =>
      rw [hpos] at hstop hun hdots
      have hhead := hun.head
      rw [pathAt, if_neg (by rw [hstop]; exact Bool.false_ne_true), hpos, deref_cons,
        ok_bind] at h₁ h₂
      rw [pathSwitch.eq_def] at h₁ h₂
      split at h₁
      · obtain ⟨e, rfl⟩ := pathSlash_next h₁
        have hfurther := pathSlash_further standardUriParsingOptions O
          (r.2.setWarning .reverseSolidusUsed)
        rw [h₁] at hfurther
        refine .inl fun hclean => ?_
        exact warnings_setWarning_ne r.2.ctx .reverseSolidusUsed (hfurther.ctx.clean hclean)
      · obtain ⟨e, rfl⟩ := pathSlash_next h₁
        have hsame := h₁
        rw [pathSlash_congr (hdots rfl)] at hsame
        cases hsame.symm.trans h₂
        exact .inr (.slash hpos h₁)
      · cases h₁
        cases h₂
        exact .inr (.tail _ hpos (.inl rfl))
      · cases h₁
        cases h₂
        exact .inr (.tail _ hpos (.inr rfl))
      · obtain ⟨r₁, he₁, h₁⟩ := exists_of_bind_eq_ok h₁
        obtain ⟨r₂, he₂, h₂⟩ := exists_of_bind_eq_ok h₂
        cases h₁
        cases h₂
        cases hvalid : r₁.1 with
        | false => exact .inl (warnings_setWarning_ne r₁.2.ctx .invalidCharacter)
        | true =>
            obtain ⟨c, d, rest', rfl, hc, hd, rfl, rfl⟩ :=
              validatePercentEncode_alike hpos hun.tail he₁ hvalid he₂
            exact .inr (.escape hpos hc hd)
      · exact absurd hhead.1 (by decide)
      · exact absurd hhead.1 (by decide)
      · exact absurd hhead.1 (by decide)
      · exact absurd rfl hhead.2
      · cases h₁
        exact .inl (warnings_setWarning_ne r.2.ctx .invalidCharacter)

/-! ## All rounds -/

/-- What is passed of a path. -/
def Passed (p pos : List Char) : Prop :=
  ∃ passed, p = passed ++ pos ∧ '?' ∉ passed ∧ '#' ∉ passed

theorem Passed.refl (p : List Char) : Passed p p := ⟨[], rfl, by simp, by simp⟩

theorem Passed.suffix {p pos : List Char} (h : Passed p pos) : pos <:+ p := by
  obtain ⟨passed, rfl, -⟩ := h
  exact List.suffix_append ..

theorem Passed.more (run : List Char) {p pos : List Char} (h : Passed p (run ++ pos))
    (hquery : '?' ∉ run) (hhash : '#' ∉ run) : Passed p pos := by
  obtain ⟨passed, rfl, hquery', hhash'⟩ := h
  refine ⟨passed ++ run, (List.append_assoc ..).symm, ?_, ?_⟩
  · rw [List.mem_append, not_or]
    exact ⟨hquery', hquery⟩
  · rw [List.mem_append, not_or]
    exact ⟨hhash', hhash⟩

theorem pathInteresting_contains (O : Output σ) {c : Char} (hc : c = '?' ∨ c = '#') :
    (pathInteresting O).contains c = true := by
  have hstops : (asciiBitmap ['\\', '\x00', '/', '?', '#', '%', '\r', '\n', '\t']).contains c =
      true := by
    rcases hc with rfl | rfl <;> decide
  rw [pathInteresting]
  split
  · rw [AsciiBitmap.contains_union, hstops, Bool.or_true]
  · exact hstops

theorem pathStop_pos (O : Output σ) (e : ComponentEncoder σ) :
    (pathStop O e).2.ctx.pos = (pathInteresting O).findFirstIn e.ctx.pos ∧
      (pathStop O e).1 = (pathStop O e).2.ctx.pos.isEmpty := by
  obtain ⟨hmoved, hempty⟩ :=
    encodeOrValidate_movedTo O .path pathEncodeSet (pathInteresting O) e
  exact ⟨hmoved.pos, by rw [hempty, hmoved.pos]⟩

theorem Passed.stop {e : ComponentEncoder σ} (h : Passed p e.ctx.pos) :
    Passed p (pathStop O e).2.ctx.pos := by
  obtain ⟨run, hsplit, hrun, -⟩ := (pathInteresting O).findFirstIn_spec e.ctx.pos
  rw [(pathStop_pos O e).1]
  rw [hsplit] at h
  refine Passed.more _ h (fun hmem => ?_) fun hmem => ?_
  · have hnot := hrun _ hmem
    rw [pathInteresting_contains O (.inl rfl)] at hnot
    cases hnot
  · have hnot := hrun _ hmem
    rw [pathInteresting_contains O (.inr rfl)] at hnot
    cases hnot

theorem not_pathInteresting_of_isHexDigit (O : Output σ) {c : Char} (h : isHexDigit c = true) :
    (pathInteresting O).contains c = false := by
  refine not_contains_of_isHexDigit ?_ h
  rw [pathInteresting]
  split
  · decide
  · decide

theorem ne_of_isHexDigit {c d : Char} (h : isHexDigit c = true) (hd : d ∉ hexDigitChars) :
    c ≠ d :=
  fun heq => hd (heq ▸ mem_hexDigitChars h)

/-- The invariant `Shape` of the rounds on the path `p`, under which dot segments are taken
back in the same way. -/
structure DotsAlike (O : Output σ) (Shape : ComponentEncoder σ → Prop) : Prop where
  agree : ∀ r, Shape r → r.ctx.pos = [] ∨ r.ctx.pos.head? = some '/' →
    handleDotsInPaths standardUriParsingOptions O r =
      handleDotsInPaths strictUriParsingOptions O r
  stop : ∀ e, Shape e → Shape (pathStop O e).2
  slash : ∀ r rest e, Shape r → r.ctx.pos = '/' :: rest →
    pathSlash standardUriParsingOptions O r = .ok (.next e) → Shape e
  escape : ∀ r c d rest, Shape r → r.ctx.pos = '%' :: c :: d :: rest → isHexDigit c = true →
    isHexDigit d = true → Shape ((store O .path ['%', c, d] r).setPos rest)

theorem pathSlash_pos (hO : O.Lawful) {r e : ComponentEncoder σ} {rest : List Char}
    (hpos : r.ctx.pos = '/' :: rest) (h : pathSlash o O r = .ok (.next e)) :
    e.ctx.pos = rest := by
  have hsafe : Safe (fun flow => ∀ e, flow = .next e → e.ctx.pos = rest) (pathSlash o O r) := by
    refine (handleDotsInPaths_safe r hO).bind fun r' hr => ?_
    have hcons := hr.pos.trans hpos
    split
    · refine (ignoreCharacter_cons hcons).bind fun e' he' => ?_
      intro e heq
      cases heq
      exact (resetSegmentStart_movedTo O .path e').pos.trans he'.pos
    · refine (nextSegmentOf_cons hcons '/').bind fun e' he' => ?_
      intro e heq
      cases heq
      exact he'.pos
  rw [h] at hsafe
  exact hsafe e rfl

/-- How the loop is left without a warning. -/
inductive PathLeft (p : List Char) (Shape : ComponentEncoder σ → Prop) (r : ComponentEncoder σ) :
    Prop where
  | finish (hpos : r.ctx.pos = []) (hshape : Shape r) (hquery : '?' ∉ p) (hhash : '#' ∉ p)
  | tail (hpos : r.ctx.pos ≠ []) (h : '?' ∈ p ∨ '#' ∈ p)

theorem FlowWarned.leads {f : Flow (ComponentEncoder σ) (ComponentEncoder σ)} (h : FlowWarned f) :
    FlowLeads (pathStep o O) .diverges (fun e => e.ctx.status.warnings ≠ ∅) f := by
  cases f with
  | next e =>
      intro n r hr hclean
      exact h ((loop_further (pathStep_further o O) hr).ctx.clean hclean)
  | done e => exact h

/-- The encoders of the two presets: what the search does next is the same. -/
structure PathLevel (O : Output σ) (Shape : ComponentEncoder σ → Prop) (p : List Char)
    (e₁ e₂ : ComponentEncoder σ) : Prop where
  stop : pathStop O e₁ = pathStop O e₂
  shape : Shape e₁
  passed : Passed p e₁.ctx.pos

theorem pathStep_lockstep (hO : O.Lawful) (happend : O.Appends) (hdots : DotsAlike O Shape)
    {r : ComponentEncoder σ} {f₁ f₂ : Flow (ComponentEncoder σ) (ComponentEncoder σ)}
    (hshape : Shape r) (hpassed : Passed p r.ctx.pos) (halike : PathAlike O r f₁ f₂) :
    FlowRelated (PathLevel O Shape p) (fun r₁ r₂ => r₁ = r₂ ∧ PathLeft p Shape r₁) f₁ f₂ := by
  cases halike with
  | finish hpos =>
      obtain ⟨passed, hsplit, hquery, hhash⟩ := hpassed
      rw [hpos, List.append_nil] at hsplit
      rw [← hsplit] at hquery hhash
      exact .done ⟨rfl, .finish hpos hshape hquery hhash⟩
  | tail value hpos hc =>
      refine .done ⟨rfl, .tail ?_ ?_⟩
      · show r.ctx.pos ≠ []
        rw [hpos]
        exact List.cons_ne_nil _ _
      · have hmem := hpassed.suffix.subset
        rw [hpos] at hmem
        rcases hc with rfl | rfl
        · exact .inl (hmem List.mem_cons_self)
        · exact .inr (hmem List.mem_cons_self)
  | slash hpos hslash =>
      rw [hpos] at hpassed
      refine .next ⟨rfl, hdots.slash r _ _ hshape hpos hslash, ?_⟩
      rw [pathSlash_pos hO hpos hslash]
      exact Passed.more ['/'] hpassed (by simp) (by simp)
  | escape hpos hc hd =>
      rename_i c d rest
      rw [hpos] at hpassed
      refine .next ⟨?_, hdots.escape r c d rest hshape hpos hc hd, ?_⟩
      · refine encodeOrValidate_pending happend ?_ ?_ ?_ ['%', c] rest r
        · exact fun _ => Bool.and_false _
        · exact not_contains_of_isHexDigit (by decide) hd
        · exact not_pathInteresting_of_isHexDigit O hd
      · refine Passed.more ['%', c, d] hpassed ?_ ?_
        · have hcne := ne_of_isHexDigit (d := '?') hc (by decide)
          have hdne := ne_of_isHexDigit (d := '?') hd (by decide)
          simp [hcne.symm, hdne.symm]
        · have hcne := ne_of_isHexDigit (d := '#') hc (by decide)
          have hdne := ne_of_isHexDigit (d := '#') hd (by decide)
          simp [hcne.symm, hdne.symm]

theorem path_lockstep (hO : O.Lawful) (happend : O.Appends) (hdots : DotsAlike O Shape)
    (hun : Untabbed p) {n : ℕ} {e r₁ r₂ : ComponentEncoder σ} (hshape : Shape e)
    (hpassed : Passed p e.ctx.pos)
    (h₁ : loop (pathStep standardUriParsingOptions O) .diverges n e = .ok r₁)
    (hclean : r₁.ctx.status.warnings = ∅)
    (h₂ : loop (pathStep strictUriParsingOptions O) .diverges n e = .ok r₂) :
    r₁ = r₂ ∧ PathLeft p Shape r₁ := by
  have hlockstep := loop_lockstep (PathLevel O Shape p)
    (fun r₁ r₂ => r₁.ctx.status.warnings ≠ ∅ ∨ r₁ = r₂ ∧ PathLeft p Shape r₁)
    (fun e₁ e₂ f₁ f₂ hlevel hf₁ hf₂ => ?_) ⟨rfl, hshape, hpassed⟩ h₁ h₂
  · exact hlockstep.resolve_left fun hwarned => hwarned hclean
  · obtain ⟨hstop, hshape, hpassed⟩ := hlevel
    have hpassed' : Passed p (pathStop O e₁).2.ctx.pos := hpassed.stop
    have hshape' := hdots.stop e₁ hshape
    rw [pathStep_eq] at hf₁ hf₂
    rw [← hstop] at hf₂
    have hempty := (pathStop_pos O e₁).2
    generalize pathStop O e₁ = r at hf₁ hf₂ hpassed' hshape' hempty
    rcases pathAt_alike hempty (hun.of_suffix hpassed'.suffix)
      (fun hslash => hdots.agree r.2 hshape' (.inr hslash)) hf₁ hf₂ with hwarned | halike
    · exact .inr (.inl (hwarned.leads.mono fun r hr r' => .inl hr))
    · exact .inl ((pathStep_lockstep hO happend hdots hshape' hpassed' halike).mono
        fun r₁ r₂ => .inr)

/-! ## Behind the path -/

section End

variable {o : Options} {r : ComponentEncoder σ} {a : Ctx σ}

theorem pathEnd_further (o : Options) (r : ComponentEncoder σ) :
    Partly (Grows r.ctx) (pathEnd o O r) := by
  rw [pathEnd]
  refine (handleDotsInPaths_further o O r).bind fun r' hr => ?_
  have hset := (hr.trans (endSegment_further O .path r'.2)).trans (setValue_further O .path _)
  generalize setValue O .path (endSegment O .path r'.2) = e at hset
  simp only
  split
  · exact (ignoreCharacter_further e 1).bind fun e' he' => (hset.trans he').ctx
  · split
    · exact (nextSegmentOf_further O .path e 0 '/').bind fun e' he' =>
        (hset.trans he').ctx.setValid (.inl rfl)
    · exact hset.ctx.setValid (.inl rfl)

theorem pathEnd_valid (hO : O.Lawful) (hend : o.eofIsValid = false ∨ r.ctx.pos = [])
    (h : pathEnd o O r = .ok a) : a.status.value = .valid ∧ a.pos = r.ctx.pos := by
  have hsafe : Safe (fun a => a.status.value = .valid ∧ a.pos = r.ctx.pos) (pathEnd o O r) := by
    rw [pathEnd]
    refine (handleDotsInPaths_safe r hO).bind fun r' hr => ?_
    have hset := hr.trans (hr.pos ▸ setValue_endSegment_movedTo O .path r'.2)
    generalize setValue O .path (endSegment O .path r'.2) = e at hset
    have hstays :
        ¬(o.eofIsValid && !e.ctx.pos.isEmpty && e.ctx.pos.head? != some '\x00') = true := by
      rw [hset.pos]
      rcases hend with hend | hend
      · simp [hend]
      · simp [hend]
    simp only
    rw [if_neg hstays]
    split
    · refine (nextSegmentOf_safe '/' (Nat.zero_le _)).bind fun e' he' => ⟨rfl, ?_⟩
      exact he'.pos.trans hset.pos
    · exact ⟨rfl, hset.pos⟩
  rw [h] at hsafe
  exact hsafe

theorem pathEnd_finish (hO : O.Lawful) (hpos : r.ctx.pos = [])
    (hagree : handleDotsInPaths standardUriParsingOptions O r =
      handleDotsInPaths strictUriParsingOptions O r) :
    pathEnd standardUriParsingOptions O r = pathEnd strictUriParsingOptions O r := by
  rw [pathEnd, pathEnd, ← hagree]
  have hsafe := handleDotsInPaths_safe (o := standardUriParsingOptions) r hO
  cases hdots : handleDotsInPaths standardUriParsingOptions O r with
  | error fault => rfl
  | ok r' =>
      rw [hdots] at hsafe
      have hset := hsafe.trans (hsafe.pos ▸ setValue_endSegment_movedTo O .path r'.2)
      have hnil : (setValue O .path (endSegment O .path r'.2)).ctx.pos = [] :=
        hset.pos.trans hpos
      simp only [ok_bind, hnil, List.isEmpty_nil, Bool.not_true, Bool.and_false, Bool.false_and,
        Bool.false_eq_true, if_false]

end End

theorem parsePath_eq {ctx : Ctx σ} (hscheme : ctx.scheme = .specialScheme) :
    parsePath o O ctx = (do
      let e ← loop (pathStep o O) .diverges
        ((startSegment O .path (ofCtx ctx)).ctx.pos.length + 1) (startSegment O .path (ofCtx ctx))
      pathEnd o O e) := by
  have hstart := startSegment_movedTo O .path (ofCtx ctx)
  have hletter : handleWindowsDriverLetter o O (startSegment O .path (ofCtx ctx)) =
      .ok (startSegment O .path (ofCtx ctx)) := by
    rw [handleWindowsDriverLetter, hstart.scheme, show (ofCtx ctx).ctx.scheme = _ from hscheme]
    rw [if_neg (by simp [isFileScheme])]
    rfl
  rw [parsePath, hscheme, if_pos (by decide), hletter]
  rfl

/-! ## The strict preset -/

/-- No `?` and no `#` is passed over without a warning. -/
def StrictPassed (p : List Char) (e : ComponentEncoder σ) : Prop :=
  e.ctx.status.warnings ≠ ∅ ∨ Passed p e.ctx.pos

theorem percentEscape_strict_valid {pos : List Char} {r : List Char × List Char × Bool}
    (h : percentEscape false ('%' :: pos) = .ok r) (hvalid : r.2.2 = true) :
    ∃ c, isHexDigit c = true ∧ pos = c :: r.2.1 := by
  rcases pos with _ | ⟨c, pos⟩
  · cases h
    cases hvalid
  · cases hc : isHexDigit c with
    | false =>
        simp only [percentEscape, hc, Bool.false_eq_true, if_false] at h
        cases h
        cases hvalid
    | true =>
        rcases pos with _ | ⟨d, pos⟩
        · simp only [percentEscape, hc, Bool.false_eq_true, if_false, if_true] at h
          cases h
        · simp only [percentEscape, hc, Bool.false_eq_true, if_false, if_true, deref_cons,
            ok_bind] at h
          cases h
          exact ⟨c, hc, rfl⟩

section Strict

variable {p : List Char}

/-- The rounds that set no warning stop at a `?` and a `#`. -/
theorem pathAt_strict (hO : O.Lawful) {r : Bool × ComponentEncoder σ}
    (hun : Untabbed r.2.ctx.pos) (hpassed : Passed p r.2.ctx.pos) :
    Partly (FlowSat (StrictPassed p) (StrictPassed p)) (pathAt O strictUriParsingOptions r) := by
  rw [pathAt]
  split
  · exact Or.inr hpassed
  · cases hpos : r.2.ctx.pos with
    | nil => trivial
    | cons c rest =>
        rw [hpos] at hpassed hun
        rw [deref_cons, ok_bind, pathSwitch.eq_def]
        split
        · have hwarned := pathSlash_further strictUriParsingOptions O
            (r.2.setWarning .reverseSolidusUsed)
          cases hslash : pathSlash strictUriParsingOptions O
              (r.2.setWarning .reverseSolidusUsed) with
          | error fault => trivial
          | ok flow =>
              rw [hslash] at hwarned
              have hkept (e : ComponentEncoder σ)
                  (h : Further (r.2.setWarning .reverseSolidusUsed) e) : StrictPassed p e :=
                .inl fun hclean => warnings_setWarning_ne r.2.ctx .reverseSolidusUsed
                  (h.ctx.clean hclean)
              cases flow with
              | next e => exact hkept e hwarned
              | done e => exact hkept e hwarned
        · cases hslash : pathSlash strictUriParsingOptions O r.2 with
          | error fault => trivial
          | ok flow =>
              obtain ⟨e, rfl⟩ := pathSlash_next hslash
              refine Or.inr ?_
              rw [pathSlash_pos hO hpos hslash]
              exact hpassed.more ['/'] (by simp) (by simp)
        · exact Or.inr (hpos ▸ hpassed)
        · exact Or.inr (hpos ▸ hpassed)
        · rw [show strictUriParsingOptions.ignoreTabsOrNewlines = false from rfl,
            validatePercentEncode, hpos]
          cases hescape : percentEscape false ('%' :: rest) with
          | error fault => trivial
          | ok escape =>
              cases hvalid : escape.2.2 with
              | false =>
                  refine Or.inl ?_
                  simp only [hvalid, Bool.false_eq_true, if_false]
                  exact warnings_setWarning_ne _ _
              | true =>
                  obtain ⟨d, hd, rfl⟩ := percentEscape_strict_valid hescape hvalid
                  refine Or.inr ?_
                  simp only [hvalid, if_true]
                  refine hpassed.more ['%', d] ?_ ?_
                  · simp [(ne_of_isHexDigit (d := '?') hd (by decide)).symm]
                  · simp [(ne_of_isHexDigit (d := '#') hd (by decide)).symm]
        · exact absurd hun.head.1 (by decide)
        · exact absurd hun.head.1 (by decide)
        · exact absurd hun.head.1 (by decide)
        · exact absurd rfl hun.head.2
        · exact Or.inl (warnings_setWarning_ne r.2.ctx .invalidCharacter)

theorem pathStep_strict (hO : O.Lawful) (hun : Untabbed p) {e : ComponentEncoder σ}
    (h : StrictPassed p e) :
    Partly (FlowSat (StrictPassed p) (StrictPassed p)) (pathStep strictUriParsingOptions O e) := by
  rcases h with hwarned | hpassed
  · refine (pathStep_further strictUriParsingOptions O e).mono fun flow hflow => ?_
    cases flow with
    | next e' => exact Or.inl fun hclean => hwarned (hflow.ctx.clean hclean)
    | done e' => exact Or.inl fun hclean => hwarned (hflow.ctx.clean hclean)
  · have hpassed' : Passed p (pathStop O e).2.ctx.pos := hpassed.stop
    exact pathAt_strict hO (hun.of_suffix hpassed'.suffix) hpassed'

theorem parsePath_strict (hO : O.Lawful) {ctx : Ctx σ} (hscheme : ctx.scheme = .specialScheme)
    (hun : Untabbed ctx.pos) (hmark : '?' ∈ ctx.pos ∨ '#' ∈ ctx.pos) :
    Partly (fun a => a.status.value = .valid ∧ (a.status.warnings ≠ ∅ ∨ a.pos ≠ []))
      (parsePath strictUriParsingOptions O ctx) := by
  have hstart : (startSegment O .path (ofCtx ctx)).ctx.pos = ctx.pos :=
    (startSegment_movedTo O .path (ofCtx ctx)).pos
  rw [parsePath_eq hscheme]
  generalize startSegment O .path (ofCtx ctx) = e at hstart
  cases hloop : loop (pathStep strictUriParsingOptions O) .diverges (e.ctx.pos.length + 1) e with
  | error fault => trivial
  | ok r =>
      rw [ok_bind]
      cases hend : pathEnd strictUriParsingOptions O r with
      | error fault => trivial
      | ok a =>
          have hgrows := pathEnd_further (O := O) strictUriParsingOptions r
          rw [hend] at hgrows
          obtain ⟨hvalue, hpos⟩ := pathEnd_valid hO (.inl rfl) hend
          have hleft : StrictPassed ctx.pos r :=
            loop_partly (StrictPassed ctx.pos) (StrictPassed ctx.pos)
              (fun e he => pathStep_strict hO hun he) (.inr (hstart ▸ Passed.refl ctx.pos)) hloop
          refine ⟨hvalue, hleft.imp (fun hwarned hclean => hwarned (hgrows.clean hclean)) ?_⟩
          rintro ⟨passed, hsplit, hquery, hhash⟩ hnil
          rw [← hpos, hnil, List.append_nil] at hsplit
          rw [← hsplit] at hquery hhash
          exact hmark.elim hquery hhash

end Strict

theorem parsePath_alike (hO : O.Lawful) (happend : O.Appends)
    (hdots : DotsAlike O Shape) {ctx a₁ a₂ : Ctx σ} (hscheme : ctx.scheme = .specialScheme)
    (hun : Untabbed ctx.pos) (hshape : Shape (startSegment O .path (ofCtx ctx)))
    (h₁ : parsePath standardUriParsingOptions O ctx = .ok a₁) (hclean : a₁.status.warnings = ∅)
    (h₂ : parsePath strictUriParsingOptions O ctx = .ok a₂) :
    ('?' ∉ ctx.pos ∧ '#' ∉ ctx.pos) ∧ a₁ = a₂ ∧ a₂.status.value = .valid ∧ a₂.pos = [] ∨
      ('?' ∈ ctx.pos ∨ '#' ∈ ctx.pos) ∧ a₂.status.value = .valid ∧ a₂.pos ≠ [] := by
  have hstart : (startSegment O .path (ofCtx ctx)).ctx.pos = ctx.pos :=
    (startSegment_movedTo O .path (ofCtx ctx)).pos
  rw [parsePath_eq hscheme] at h₁ h₂
  generalize startSegment O .path (ofCtx ctx) = e at hshape hstart h₁ h₂
  obtain ⟨r₁, hr₁, h₁⟩ := exists_of_bind_eq_ok h₁
  obtain ⟨r₂, hr₂, h₂⟩ := exists_of_bind_eq_ok h₂
  have hend := pathEnd_further (O := O) standardUriParsingOptions r₁
  rw [h₁] at hend
  obtain ⟨rfl, hleft⟩ := path_lockstep hO happend hdots hun hshape
    (hstart ▸ Passed.refl e.ctx.pos) hr₁ (hend.clean hclean) hr₂
  cases hleft with
  | finish hpos hshape hquery hhash =>
      have hagree := hdots.agree r₁ hshape (.inl hpos)
      obtain ⟨hvalue, hpos'⟩ := pathEnd_valid hO (.inr hpos) h₂
      rw [pathEnd_finish hO hpos hagree, h₂] at h₁
      cases h₁
      exact .inl ⟨⟨hquery, hhash⟩, rfl, hvalue, hpos'.trans hpos⟩
  | tail hpos htail =>
      obtain ⟨hvalue, hpos'⟩ := pathEnd_valid hO (.inl rfl) h₂
      exact .inr ⟨htail, hvalue, hpos' ▸ hpos⟩

end Webpp.Uri
