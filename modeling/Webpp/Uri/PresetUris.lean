import Webpp.Uri.PresetHosts
import Webpp.Uri.PresetQueries
import Webpp.Uri.PresetSchemes
import Webpp.Uri.SafeUri

/-!
# URIs under two presets

`parse_uri` on a special URI under the standard and the strict preset, in lockstep. Behind a
path the strict preset reads nothing more, so that all of the text is read by it only where
queries or a fragment come straight behind the host, or not at all (`ReadsAll`). Where it reads
all, the two presets leave the same context, unless one of them sets an error or a warning
(`parseUri_presets`).
-/

namespace Webpp.Uri

open ComponentEncoder Ctx Loop Webpp.Text

variable {σ : Type} {o : Options} {O : Output σ} {ctx : Ctx σ}

/-! ## Rounds -/

/-- The parser of a status. -/
def uriParser (o : Options) (O : Output σ) : UriStatus → Option (Ctx σ → Run (Ctx σ))
  | .unparsed => some (parseScheme o O)
  | .validAuthority => some (parseAuthority o O)
  | .validPort => some (parsePort o O)
  | .validAuthorityEnd => some (parseAuthorityEnd o O)
  | .validPath => some (parsePath o O)
  | .validQueries => some (parseQueries o O)
  | .validFragment => some (parseFragment o O)
  | _ => none

theorem parseUriRound_of_some {parse : Ctx σ → Run (Ctx σ)}
    (h : uriParser o O ctx.status.value = some parse) :
    parseUriRound o O ctx = parse ctx >>= fun a => pure (.next a) := by
  rw [parseUriRound, Status.hasError, parseUriStep]
  cases hvalue : ctx.status.value <;> rw [hvalue] at h <;> cases h <;> rfl

theorem parseUriRound_next {parse : Ctx σ → Run (Ctx σ)} {flow : Flow (Ctx σ) (Ctx σ)}
    (hparse : uriParser o O ctx.status.value = some parse)
    (h : parseUriRound o O ctx = .ok flow) : ∃ a, parse ctx = .ok a ∧ flow = .next a := by
  rw [parseUriRound_of_some hparse] at h
  obtain ⟨a, ha, h⟩ := exists_of_bind_eq_ok h
  cases h
  exact ⟨a, ha, rfl⟩

theorem parseUriRound_error (h : ctx.status.hasError = true) :
    parseUriRound o O ctx = .ok (.done ctx) :=
  if_pos h

theorem parseUriRound_valid (h : ctx.status.value = .valid) :
    parseUriRound o O ctx = .ok (.done ctx) := by
  rw [parseUriRound, Status.hasError, h, parseUriStep, h]
  rfl

theorem valid_leads (h : ctx.status.value = .valid) :
    FlowLeads (parseUriRound o O) .diverges (· = ctx) (.next ctx) := by
  intro n r hr
  cases n with
  | zero => cases hr
  | succ n =>
      rw [loop_of_done (parseUriRound_valid h)] at hr
      cases hr
      rfl

/-! ## Errors and late warnings -/

theorem parsePath_grows (hscheme : ctx.scheme = .specialScheme) :
    Partly (Grows ctx) (parsePath o O ctx) := by
  have hstart := startSegment_further O .path (ofCtx ctx)
  rw [parsePath_eq hscheme]
  cases hloop : loop (pathStep o O) .diverges
      ((startSegment O .path (ofCtx ctx)).ctx.pos.length + 1)
      (startSegment O .path (ofCtx ctx)) with
  | error fault => trivial
  | ok e =>
      have hfurther := hstart.trans (loop_further (pathStep_further o O) hloop)
      exact (pathEnd_further o e).mono fun a ha => hfurther.ctx.trans ha

/-- An error, or a warning that no parser takes back. -/
inductive Late (ctx : Ctx σ) : Prop where
  | error (herror : ctx.status.hasError = true)
  | warned (hwarned : ctx.status.warnings ≠ ∅) (hscheme : ctx.scheme = .specialScheme)
      (hvalue : ctx.status.value = .validPath ∨ ctx.status.value.Ends)

theorem Late.of_grows {a : Ctx σ} (hwarned : ctx.status.warnings ≠ ∅)
    (hscheme : ctx.scheme = .specialScheme)
    (hvalue : ctx.status.value = .validPath ∨ ctx.status.value.Ends) (h : Grows ctx a) :
    Late a := by
  refine .warned (fun hclean => hwarned (h.clean hclean)) (h.scheme.trans hscheme) ?_
  rcases h.value with hsame | hends
  · rw [hsame]
    exact hvalue
  · exact .inr hends

theorem late_round (hqueries : o.parseQueries = true) (hfragment : o.parseFragment = true)
    (h : Late ctx) : Partly (FlowSat Late Ctx.Spoiled) (parseUriRound o O ctx) := by
  cases h with
  | error herror =>
      rw [parseUriRound_error herror]
      exact Or.inl herror
  | warned hwarned hscheme hvalue =>
      have hgrows (a : Ctx σ) := Late.of_grows (a := a) hwarned hscheme hvalue
      rcases hvalue with hvalue | hvalue | hvalue | hvalue
      · rw [parseUriRound_of_some (congrArg (uriParser o O) hvalue)]
        exact (parsePath_grows hscheme).bind fun a ha => hgrows a ha
      · rw [parseUriRound_valid hvalue]
        exact Or.inr hwarned
      · rw [parseUriRound_of_some (congrArg (uriParser o O) hvalue)]
        exact (parseQueries_grows O hqueries ctx).bind fun a ha => ha.elim .error (hgrows a)
      · rw [parseUriRound_of_some (congrArg (uriParser o O) hvalue)]
        exact (parseFragment_grows O hfragment ctx).bind fun a ha => hgrows a ha

theorem late_leads (hqueries : o.parseQueries = true) (hfragment : o.parseFragment = true)
    (h : Late ctx) : FlowLeads (parseUriRound o O) .diverges Ctx.Spoiled (.next ctx) :=
  fun _ _ hr =>
    loop_partly Late Ctx.Spoiled (fun _ hlate => late_round hqueries hfragment hlate) h hr

/-! ## The relation of the two runs -/

/-- Nothing but queries or a fragment is behind the host, or neither of them. -/
def ReadsAll (R : List Char) : Prop :=
  R.head? = some '?' ∨ R.head? = some '#' ∨ '?' ∉ R ∧ '#' ∉ R

/-- The two contexts while they are parsed, with the text `R` behind the host. -/
inductive UriLevel (text R : List Char) : Ctx σ → Ctx σ → Prop where
  | start {ctx : Ctx σ} (hvalue : ctx.status.value = .unparsed) (hpos : ctx.pos = text) :
      UriLevel text R ctx ctx
  | authority {ctx₁ ctx₂ : Ctx σ} (h : SchemeAlike (authorityText text) ctx₁ ctx₂) :
      UriLevel text R ctx₁ ctx₂
  | host {before ctx : Ctx σ} (hscheme : before.scheme = .specialScheme)
      (h : HostLeft R before ctx) : UriLevel text R ctx ctx
  | tail {ctx : Ctx σ} (hreads : ReadsAll R) (hscheme : ctx.scheme = .specialScheme)
      (hun : Untabbed ctx.pos)
      (hvalue : ctx.status.value = .validFragment ∨ ctx.status.value = .valid ∧ ctx.pos = []) :
      UriLevel text R ctx ctx

/-- What the parsers ask of the output and the text, to do the same under both presets. -/
structure PresetsMeet (O : Output σ) (R : List Char) : Prop where
  path : R.head? ≠ some '?' → R.head? ≠ some '#' → ∀ ctx : Ctx σ, ctx.pos <:+ R →
    Front ctx.pos → ∃ Shape, DotsAlike O Shape ∧ Shape (startSegment O .path (ofCtx ctx))
  queries : O.isModifiable = true → isMap O .queries = true → R.head? = some '?' →
    NoEscape R.tail

/-- How the two runs end. -/
def PresetsEnd (O : Output σ) (R : List Char) (a₁ a₂ : Ctx σ) : Prop :=
  a₁.Spoiled ∨ a₂.Spoiled ∨ ReadsAll R ∧ (PresetsMeet O R → a₁ = a₂ ∧ a₂.pos = []) ∨
    ¬ReadsAll R ∧ a₂.pos ≠ []

/-- What two rounds lead to. -/
def RoundsAlike (O : Output σ) (text R : List Char) (f₁ f₂ : Flow (Ctx σ) (Ctx σ)) : Prop :=
  FlowRelated (UriLevel text R) (PresetsEnd O R) f₁ f₂ ∨
    FlowLeads (parseUriRound standardUriParsingOptions O) .diverges
      (fun a₁ => ∀ a₂, PresetsEnd O R a₁ a₂) f₁ ∨
    FlowLeads (parseUriRound strictUriParsingOptions O) .diverges
      (fun a₂ => ∀ a₁, PresetsEnd O R a₁ a₂) f₂

section Rounds

variable {text R : List Char} {a₁ a₂ : Ctx σ} {f₁ f₂ : Flow (Ctx σ) (Ctx σ)}

theorem RoundsAlike.next (h : UriLevel text R a₁ a₂) : RoundsAlike O text R (.next a₁) (.next a₂) :=
  .inl (.next h)

theorem RoundsAlike.of_late (h : Late a₁) : RoundsAlike O text R (.next a₁) f₂ :=
  .inr (.inl ((late_leads rfl rfl h).mono fun _ hspoiled _ => .inl hspoiled))

theorem RoundsAlike.of_error (h : a₁.status.hasError = true ∨ a₂.status.hasError = true) :
    RoundsAlike O text R (.next a₁) (.next a₂) := by
  rcases h with herror | herror
  · exact .of_late (.error herror)
  · exact .inr (.inr ((late_leads rfl rfl (.error herror)).mono fun _ hspoiled _ =>
      .inr (.inl hspoiled)))

theorem RoundsAlike.of_not_meet (hreads : ReadsAll R) (hmeet : ¬PresetsMeet O R) :
    RoundsAlike O text R (.next a₁) f₂ :=
  .inr (.inl fun _ _ _ _ => .inr (.inr (.inl ⟨hreads, fun h => absurd h hmeet⟩)))

theorem scheme_rounds (hun : Untabbed text) (hspecial : schemeName text ∈ specialSchemes)
    (hvalue : ctx.status.value = .unparsed) (hpos : ctx.pos = text)
    (hf₁ : parseUriRound standardUriParsingOptions O ctx = .ok f₁)
    (hf₂ : parseUriRound strictUriParsingOptions O ctx = .ok f₂) : RoundsAlike O text R f₁ f₂ := by
  obtain ⟨a₁, h₁, rfl⟩ := parseUriRound_next (congrArg (uriParser _ O) hvalue) hf₁
  obtain ⟨a₂, h₂, rfl⟩ := parseUriRound_next (congrArg (uriParser _ O) hvalue) hf₂
  subst hpos
  rcases parseScheme_alike hun hspecial h₁ h₂ with halike | herror
  · exact .next (.authority halike)
  · exact .of_error (.inl herror)

theorem authority_rounds (hun : Untabbed (authorityText text)) {ctx₁ ctx₂ : Ctx σ}
    (h : SchemeAlike (authorityText text) ctx₁ ctx₂)
    (hf₁ : parseUriRound standardUriParsingOptions O ctx₁ = .ok f₁)
    (hf₂ : parseUriRound strictUriParsingOptions O ctx₂ = .ok f₂) :
    RoundsAlike O text (hostRest (authorityText text)) f₁ f₂ := by
  obtain ⟨a₁, h₁, rfl⟩ := parseUriRound_next (congrArg (uriParser _ O) h.value.1) hf₁
  obtain ⟨a₂, h₂, rfl⟩ := parseUriRound_next (congrArg (uriParser _ O) h.value.2) hf₂
  have hun₁ : Untabbed ctx₁.pos := h.pos.1 ▸ hun
  rcases h.same with rfl | hnil
  · have hleft := parseAuthority_left (O := O) hun₁ h.scheme.1
    rw [h₁, h.pos.1] at hleft
    rcases parseAuthority_alike hun₁ h.scheme.1 h₁ h₂ with rfl | hlate | herror
    · exact .next (.host h.scheme.1 hleft)
    · exact .of_late (.warned hlate.warnings (hlate.scheme.trans h.scheme.1) hlate.value)
    · exact .of_error herror
  · rw [parseAuthority_eq O rfl rfl hun₁ h.scheme.1, h.pos.1, hnil] at h₁
    cases h₁
    exact .of_error (.inl rfl)

theorem readsAll_of_behind {pos : List Char} (h : BehindHost R pos)
    (hnone : '?' ∉ pos ∧ '#' ∉ pos) : ReadsAll R :=
  .inr (.inr ⟨fun hmem => hnone.1 (h.mem _ hmem (.inl rfl)),
    fun hmem => hnone.2 (h.mem _ hmem (.inr rfl))⟩)

theorem not_readsAll {pos : List Char} (h : BehindHost R pos)
    (hhead : R.head? ≠ some '?' ∧ R.head? ≠ some '#') (hmark : '?' ∈ pos ∨ '#' ∈ pos) :
    ¬ReadsAll R := by
  rintro (hquery | hhash | ⟨hquery, hhash⟩)
  · exact hhead.1 hquery
  · exact hhead.2 hhash
  · exact hmark.elim (fun hmem => hquery (h.suffix.subset hmem))
      fun hmem => hhash (h.suffix.subset hmem)

theorem BehindHost.trans {pos pos' : List Char} (h : BehindHost R pos) (h' : BehindHost pos pos') :
    BehindHost R pos' :=
  ⟨h'.suffix.trans h.suffix, fun c hc hmark => h'.mem c (h.mem c hc hmark) hmark⟩

/-- Also where dot segments differ, the strict preset stops at a `?` and a `#`. -/
theorem path_rounds_of_not_meet (hO : O.Lawful) (hun : Untabbed R)
    (hscheme : ctx.scheme = .specialScheme) (hpos : BehindHost R ctx.pos)
    (hhead : R.head? ≠ some '?' ∧ R.head? ≠ some '#') (hmeet : ¬PresetsMeet O R)
    (h₂ : parsePath strictUriParsingOptions O ctx = .ok a₂) :
    RoundsAlike O text R (.next a₁) (.next a₂) := by
  by_cases hmark : '?' ∈ ctx.pos ∨ '#' ∈ ctx.pos
  · have hstrict := parsePath_strict hO hscheme (hun.of_suffix hpos.suffix) hmark
    rw [h₂] at hstrict
    refine .inr (.inr ((valid_leads hstrict.1).mono fun r hr a => ?_))
    rw [hr]
    rcases hstrict.2 with hwarned | hrest
    · exact .inr (.inl (.inr hwarned))
    · exact .inr (.inr (.inr ⟨not_readsAll hpos hhead hmark, hrest⟩))
  · exact .of_not_meet (readsAll_of_behind hpos (not_or.mp hmark)) hmeet

theorem path_rounds (hO : O.Lawful) (happend : O.Appends) (hun : Untabbed R)
    (hscheme : ctx.scheme = .specialScheme)
    (hvalue : ctx.status.value = .validPath) (hpos : BehindHost R ctx.pos)
    (hfront : Front ctx.pos) (hhead : R.head? ≠ some '?' ∧ R.head? ≠ some '#')
    (hf₁ : parseUriRound standardUriParsingOptions O ctx = .ok f₁)
    (hf₂ : parseUriRound strictUriParsingOptions O ctx = .ok f₂) : RoundsAlike O text R f₁ f₂ := by
  obtain ⟨a₁, h₁, rfl⟩ := parseUriRound_next (congrArg (uriParser _ O) hvalue) hf₁
  obtain ⟨a₂, h₂, rfl⟩ := parseUriRound_next (congrArg (uriParser _ O) hvalue) hf₂
  have hgrows := parsePath_grows (o := standardUriParsingOptions) (O := O) hscheme
  rw [h₁] at hgrows
  have hscheme' : a₁.scheme = .specialScheme := hgrows.scheme.trans hscheme
  by_cases hmeet : PresetsMeet O R
  swap
  · exact path_rounds_of_not_meet hO hun hscheme hpos hhead hmeet h₂
  by_cases hclean : a₁.status.warnings = ∅
  · obtain ⟨Shape, hdots, hshape⟩ := hmeet.path hhead.1 hhead.2 ctx hpos.suffix hfront
    rcases parsePath_alike hO happend hdots hscheme (hun.of_suffix hpos.suffix) hshape h₁ hclean h₂
      with ⟨hnone, rfl, hvalid, hnil⟩ | ⟨hmark, hvalid, hrest⟩
    · have hreads := readsAll_of_behind hpos hnone
      have hun' := hun.of_suffix (hgrows.pos.trans hpos.suffix)
      exact .next (.tail hreads hscheme' hun' (.inr ⟨hvalid, hnil⟩))
    · refine .inr (.inr ((valid_leads hvalid).mono fun r hr a => ?_))
      rw [hr]
      exact .inr (.inr (.inr ⟨not_readsAll hpos hhead hmark, hrest⟩))
  · refine .of_late (.warned hclean hscheme' ?_)
    rcases hgrows.value with hsame | hends
    · exact .inl (hsame.trans hvalue)
    · exact .inr hends

theorem authorityEnd_rounds (hun : Untabbed R) {before : Ctx σ}
    (hspecial : before.scheme = .specialScheme) (hscheme : ctx.scheme = before.scheme)
    (hvalue : ctx.status.value = .validAuthorityEnd) (hpos : BehindHost R ctx.pos)
    (hfront : Front ctx.pos) (hhead : R.head? ≠ some '?' ∧ R.head? ≠ some '#')
    (hf₁ : parseUriRound standardUriParsingOptions O ctx = .ok f₁)
    (hf₂ : parseUriRound strictUriParsingOptions O ctx = .ok f₂) : RoundsAlike O text R f₁ f₂ := by
  obtain ⟨a₁, h₁, rfl⟩ := parseUriRound_next (congrArg (uriParser _ O) hvalue) hf₁
  obtain ⟨a₂, h₂, rfl⟩ := parseUriRound_next (congrArg (uriParser _ O) hvalue) hf₂
  have hisSpecial : isSpecialScheme ctx.scheme = true := by
    rw [hscheme, hspecial]
    rfl
  rw [parseAuthorityEnd] at h₁ h₂
  rcases hctx : ctx.pos with _ | ⟨c, pos⟩
  · rw [if_pos hctx] at h₁ h₂
    cases h₁
    cases h₂
    exact .next (.host hspecial (.ends hscheme rfl hctx hpos))
  · have hun' : Untabbed (c :: pos) := hctx ▸ hun.of_suffix hpos.suffix
    have hne : ctx.pos ≠ [] := hctx ▸ List.cons_ne_nil c pos
    rw [if_neg hne, if_pos hisSpecial, hctx, authorityEndSpecial] at h₁ h₂
    simp only [hun'.head.1, Bool.false_eq_true, false_and, if_false] at h₁ h₂
    cases h₁
    cases h₂
    rw [hctx] at hpos hfront
    refine .next (.host hspecial (.path ?_ (.inl rfl) ?_ ?_ hhead))
    · show (if c = '\\' then _ else _ : Ctx σ).scheme = before.scheme
      split
      · exact hscheme
      · exact hscheme
    · show BehindHost R (if c = '\\' then _ else _ : Ctx σ).pos
      split
      · exact hpos
      · exact hpos
    · show Front (if c = '\\' then _ else _ : Ctx σ).pos
      split
      · exact hfront
      · exact hfront

theorem port_rounds (hun : Untabbed R) {before : Ctx σ}
    (hspecial : before.scheme = .specialScheme) (hscheme : ctx.scheme = before.scheme)
    (hvalue : ctx.status.value = .validPort) (hpos : BehindHost R ctx.pos)
    (hhead : R.head? ≠ some '?' ∧ R.head? ≠ some '#')
    (hf₁ : parseUriRound standardUriParsingOptions O ctx = .ok f₁)
    (hf₂ : parseUriRound strictUriParsingOptions O ctx = .ok f₂) : RoundsAlike O text R f₁ f₂ := by
  have hun' := hun.of_suffix hpos.suffix
  obtain ⟨a₁, h₁, rfl⟩ := parseUriRound_next (congrArg (uriParser _ O) hvalue) hf₁
  obtain ⟨a₂, h₂, rfl⟩ := parseUriRound_next (congrArg (uriParser _ O) hvalue) hf₂
  have hleft := parsePort_left O hun'
  rw [← parsePort_alike O hun', h₁] at h₂
  cases h₂
  rw [h₁] at hleft
  cases hleft with
  | finished hscheme' hvalue' hnil hpos' hfollows =>
      exact .next (.host hspecial (.ends (hscheme'.trans hscheme) hvalue' hnil (hpos.trans hpos')))
  | read hscheme' hvalue' hpos' hfront hfollows =>
      exact .next (.host hspecial
        (.path (hscheme'.trans hscheme) (.inr hvalue') (hpos.trans hpos') hfront hhead))
  | invalid hscheme' hvalue' hfollows =>
      refine .of_error (.inl ?_)
      rw [Status.hasError, hvalue']
      rfl
  | outOfRange hvalue' =>
      refine .of_error (.inl ?_)
      rw [Status.hasError, hvalue']
      rfl

theorem queries_rounds (happend : O.Appends) (hun : Untabbed R)
    (hR : R = '?' :: ctx.pos) (hscheme : ctx.scheme = .specialScheme)
    (hvalue : ctx.status.value = .validQueries)
    (hf₁ : parseUriRound standardUriParsingOptions O ctx = .ok f₁)
    (hf₂ : parseUriRound strictUriParsingOptions O ctx = .ok f₂) : RoundsAlike O text R f₁ f₂ := by
  obtain ⟨a₁, h₁, rfl⟩ := parseUriRound_next (congrArg (uriParser _ O) hvalue) hf₁
  obtain ⟨a₂, h₂, rfl⟩ := parseUriRound_next (congrArg (uriParser _ O) hvalue) hf₂
  have hhead : R.head? = some '?' := by
    rw [hR]
    rfl
  have hun' : Untabbed ctx.pos := by
    rw [hR] at hun
    exact hun.tail
  by_cases hmeet : PresetsMeet O R
  swap
  · exact .of_not_meet (.inl hhead) hmeet
  have hplain : O.isModifiable = true → isMap O .queries = true → NoEscape ctx.pos := by
    intro hmodifiable hmap
    have hescape := hmeet.queries hmodifiable hmap hhead
    rw [hR] at hescape
    exact hescape
  rcases parseQueries_alike happend hun' hplain h₁ h₂ with ⟨rfl, hends⟩ | herror
  · have hgrows := parseQueries_grows O
      (show standardUriParsingOptions.parseQueries = true from rfl) ctx
    rw [h₁] at hgrows
    rcases hgrows with herror | hgrows
    · exact .of_error (.inl herror)
    · exact .next (.tail (.inl hhead) (hgrows.scheme.trans hscheme) (hun'.of_suffix hgrows.pos)
        hends.symm)
  · exact .of_error (.inr herror)

theorem fragment_rounds (happend : O.Appends) (hreads : ReadsAll R) (hun : Untabbed ctx.pos)
    (hvalue : ctx.status.value = .validFragment) (hscheme : ctx.scheme = .specialScheme)
    (hf₁ : parseUriRound standardUriParsingOptions O ctx = .ok f₁)
    (hf₂ : parseUriRound strictUriParsingOptions O ctx = .ok f₂) : RoundsAlike O text R f₁ f₂ := by
  obtain ⟨a₁, h₁, rfl⟩ := parseUriRound_next (congrArg (uriParser _ O) hvalue) hf₁
  obtain ⟨a₂, h₂, rfl⟩ := parseUriRound_next (congrArg (uriParser _ O) hvalue) hf₂
  have hgrows := parseFragment_grows O
    (show standardUriParsingOptions.parseFragment = true from rfl) ctx
  rw [h₁] at hgrows
  have hscheme' : a₁.scheme = .specialScheme := hgrows.scheme.trans hscheme
  by_cases hclean : a₁.status.warnings = ∅
  · obtain ⟨rfl, hvalid, hnil⟩ := parseFragment_alike happend hun h₁ hclean h₂
    exact .next (.tail hreads hscheme' (hun.of_suffix hgrows.pos) (.inr ⟨hvalid, hnil⟩))
  · refine .of_late (.warned hclean hscheme' (.inr ?_))
    rcases hgrows.value with hsame | hends
    · exact .inr (.inr (hsame.trans hvalue))
    · exact hends

theorem host_rounds (hO : O.Lawful) (happend : O.Appends) (hun : Untabbed R)
    {before : Ctx σ} (hspecial : before.scheme = .specialScheme)
    (h : HostLeft R before ctx)
    (hf₁ : parseUriRound standardUriParsingOptions O ctx = .ok f₁)
    (hf₂ : parseUriRound strictUriParsingOptions O ctx = .ok f₂) : RoundsAlike O text R f₁ f₂ := by
  cases h with
  | error herror =>
      rw [parseUriRound_error herror] at hf₁ hf₂
      cases hf₁
      cases hf₂
      exact .inl (.done (.inl (.inl herror)))
  | ends hscheme hvalue hnil hpos =>
      have hreads : ReadsAll R := by
        rw [hnil] at hpos
        exact readsAll_of_behind hpos ⟨List.not_mem_nil, List.not_mem_nil⟩
      rw [parseUriRound_valid hvalue] at hf₁ hf₂
      cases hf₁
      cases hf₂
      exact .inl (.done (.inr (.inr (.inl ⟨hreads, fun _ => ⟨rfl, hnil⟩⟩))))
  | tail hscheme hpos hvalue =>
      rcases hvalue with ⟨rfl, hvalue⟩ | ⟨rfl, hvalue⟩
      · exact queries_rounds happend hun hpos (hscheme.trans hspecial) hvalue hf₁ hf₂
      · have hun' : Untabbed ctx.pos := by
          rw [hpos] at hun
          exact hun.tail
        have hreads : ReadsAll R := .inr (.inl (by rw [hpos]; rfl))
        exact fragment_rounds happend hreads hun' hvalue (hscheme.trans hspecial) hf₁ hf₂
  | path hscheme hvalue hpos hfront hhead =>
      rcases hvalue with hvalue | hvalue
      · exact path_rounds hO happend hun (hscheme.trans hspecial) hvalue hpos hfront hhead hf₁ hf₂
      · exact authorityEnd_rounds hun hspecial hscheme hvalue hpos hfront hhead hf₁ hf₂
  | port hscheme hvalue hpos hhead =>
      exact port_rounds hun hspecial hscheme hvalue hpos hhead hf₁ hf₂

end Rounds

/-! ## Both runs -/

theorem authorityText_suffix (text : List Char) : authorityText text <:+ text :=
  ((List.dropWhile_suffix _).trans (List.tail_suffix _)).trans (List.dropWhile_suffix _)

theorem UriLevel.rounds (hO : O.Lawful) (happend : O.Appends) {text : List Char}
    (hun : Untabbed text)
    (hspecial : schemeName text ∈ specialSchemes) {ctx₁ ctx₂ : Ctx σ}
    {f₁ f₂ : Flow (Ctx σ) (Ctx σ)} (h : UriLevel text (hostRest (authorityText text)) ctx₁ ctx₂)
    (hf₁ : parseUriRound standardUriParsingOptions O ctx₁ = .ok f₁)
    (hf₂ : parseUriRound strictUriParsingOptions O ctx₂ = .ok f₂) :
    RoundsAlike O text (hostRest (authorityText text)) f₁ f₂ := by
  have hunText : Untabbed (authorityText text) := hun.of_suffix (authorityText_suffix text)
  cases h with
  | start hvalue hpos => exact scheme_rounds hun hspecial hvalue hpos hf₁ hf₂
  | authority h => exact authority_rounds hunText h hf₁ hf₂
  | host hscheme h =>
      exact host_rounds hO happend (hunText.of_suffix (hostRest_suffix _)) hscheme h hf₁ hf₂
  | tail hreads hscheme hun' hvalue =>
      rcases hvalue with hvalue | ⟨hvalue, hnil⟩
      · exact fragment_rounds happend hreads hun' hvalue hscheme hf₁ hf₂
      · rw [parseUriRound_valid hvalue] at hf₁ hf₂
        cases hf₁
        cases hf₂
        exact .inl (.done (.inr (.inr (.inl ⟨hreads, fun _ => ⟨rfl, hnil⟩⟩))))

/-- The runs of `parse_uri` on a special URI. -/
theorem parseUri_alike (hO : O.Lawful) (happend : O.Appends) {text : List Char}
    (hun : Untabbed text)
    (hspecial : schemeName text ∈ specialSchemes) {out : σ} {a₁ a₂ : Ctx σ}
    (h₁ : parseUri standardUriParsingOptions O (startCtx out text) = .ok a₁)
    (h₂ : parseUri strictUriParsingOptions O (startCtx out text) = .ok a₂) :
    PresetsEnd O (hostRest (authorityText text)) a₁ a₂ :=
  loop_lockstep (UriLevel text (hostRest (authorityText text))) (PresetsEnd O _)
    (fun _ _ _ _ h hf₁ hf₂ => h.rounds hO happend hun hspecial hf₁ hf₂)
    (.start rfl rfl) h₁ h₂

/-! ## The kinds of contexts -/

/-- What a kind of contexts asks of the text behind the host: strings store two dots differently
under the presets, and the map of the queries escapes. -/
def KindMeets : ContextKind → List Char → Prop
  | .string, R => R.head? = some '?' ∨ R.head? = some '#' ∨ NoDoubleDots R
  | .segregated, R => R.head? = some '?' → NoEscape R.tail
  | _, _ => True

theorem NoDoubleDots.of_suffix {p p' : List Char} (h : NoDoubleDots p) (hsuffix : p' <:+ p) :
    NoDoubleDots p' := by
  obtain ⟨passed, rfl⟩ := hsuffix
  intro before segment rest hp' hslash hrest
  refine h (passed ++ before) segment rest ?_ ?_ hrest
  · rw [hp', List.append_assoc]
  · rw [List.getLast?_append, hslash]
    rfl

theorem presetsMeet_of_views (hO : O.isModifiable = false ∨ O.isSegregated = true)
    {R : List Char} (hun : Untabbed R) (hqueries : O.isModifiable = true →
      R.head? = some '?' → NoEscape R.tail) : PresetsMeet O R where
  path _ _ ctx hsuffix _ := by
    have hreads : ReadsUntabbed (ofCtx ctx) := ⟨hun.of_suffix hsuffix, hun.of_suffix hsuffix⟩
    exact ⟨_, dotsAlike_of_views hO, hreads.further (startSegment_further O .path (ofCtx ctx))⟩
  queries hmodifiable _ := hqueries hmodifiable

theorem KindMeets.presetsMeet {kind : ContextKind} {R : List Char} (h : KindMeets kind R)
    (hun : Untabbed R) : PresetsMeet kind.output R := by
  cases kind with
  | string =>
      refine ⟨fun hquery hhash ctx hsuffix hfront => ?_, fun _ hmap => absurd hmap (by decide)⟩
      have hno : NoDoubleDots R := (h.resolve_left hquery).resolve_left hhash
      exact ⟨_, dotsAlike_of_texts (hun.of_suffix hsuffix) (hno.of_suffix hsuffix), [], [],
        textAt_ofCtx hfront⟩
  | view => exact presetsMeet_of_views (.inl rfl) hun fun hmodifiable => nomatch hmodifiable
  | u32 => exact presetsMeet_of_views (.inl rfl) hun fun hmodifiable => nomatch hmodifiable
  | segregated => exact presetsMeet_of_views (.inr rfl) hun fun _ => h
  | segregatedView =>
      exact presetsMeet_of_views (.inl rfl) hun fun hmodifiable => nomatch hmodifiable

/-- The presets report the same components, and the strict one has read all of the text. -/
def ReportAlike (a₁ a₂ : Ctx σ) : Prop := a₁.out = a₂.out ∧ a₂.pos = []

/-- A special URI that both presets accept without a warning. They report the same only if
nothing but queries or a fragment is behind its host, or neither of them; and then they do, where
the kind of the context does not ask for more. -/
theorem parseUri_presets (kind : ContextKind) {out : kind.Out} {text : List Char}
    (hun : Untabbed text) (hspecial : schemeName text ∈ specialSchemes) {a₁ a₂ : Ctx kind.Out}
    (h₁ : parseUri standardUriParsingOptions kind.output (startCtx out text) = .ok a₁)
    (h₂ : parseUri strictUriParsingOptions kind.output (startCtx out text) = .ok a₂)
    (haccepted₁ : ¬a₁.Spoiled) (haccepted₂ : ¬a₂.Spoiled) :
    (ReportAlike a₁ a₂ → ReadsAll (hostRest (authorityText text))) ∧
      (ReadsAll (hostRest (authorityText text)) → KindMeets kind (hostRest (authorityText text)) →
        ReportAlike a₁ a₂) := by
  have hunRest : Untabbed (hostRest (authorityText text)) :=
    (hun.of_suffix (authorityText_suffix text)).of_suffix (hostRest_suffix _)
  rcases parseUri_alike kind.lawful kind.appends hun hspecial h₁ h₂ with
    hspoiled | hspoiled | ⟨hreads, hsame⟩ | ⟨hreads, hrest⟩
  · exact absurd hspoiled haccepted₁
  · exact absurd hspoiled haccepted₂
  · refine ⟨fun _ => hreads, fun _ hmeets => ?_⟩
    obtain ⟨rfl, hnil⟩ := hsame (hmeets.presetsMeet hunRest)
    exact ⟨rfl, hnil⟩
  · exact ⟨fun h => absurd h.2 hrest, fun h => absurd h hreads⟩

/-- What is looked at of a result. -/
def reported (x : Run (Ctx Strings)) : Run (List Char × List Char × Status) :=
  x.map fun a => (a.pos, a.out .queries, a.status)

theorem exists_of_reported {x : Run (Ctx Strings)} {pos queries : List Char}
    (h : reported x = .ok (pos, queries, ⟨.valid, ∅⟩)) :
    ∃ a, x = .ok a ∧ a.pos = pos ∧ ¬a.Spoiled := by
  cases x with
  | error fault => cases h
  | ok a =>
      obtain ⟨hpos, -, hstatus⟩ := Prod.mk.inj (Except.ok.inj h) |>.imp_right Prod.mk.inj
      refine ⟨a, rfl, hpos, ?_⟩
      rw [Ctx.Spoiled, hstatus]
      decide

/-- Queries straight behind the host. -/
theorem parseUri_presets_queries : ∃ a₁ a₂ : Ctx Strings,
    parseUri standardUriParsingOptions stringOutput
      (startCtx (fun _ => []) ['w', 's', ':', '/', '/', 'a', 'b', '?', 'q']) = .ok a₁ ∧
    parseUri strictUriParsingOptions stringOutput
      (startCtx (fun _ => []) ['w', 's', ':', '/', '/', 'a', 'b', '?', 'q']) = .ok a₂ ∧
    ReportAlike a₁ a₂ := by
  have hstandard : reported (parseUri standardUriParsingOptions stringOutput
      (startCtx (fun _ => []) ['w', 's', ':', '/', '/', 'a', 'b', '?', 'q'])) =
      .ok ([], ['q'], ⟨.valid, ∅⟩) := rfl
  have hstrict : reported (parseUri strictUriParsingOptions stringOutput
      (startCtx (fun _ => []) ['w', 's', ':', '/', '/', 'a', 'b', '?', 'q'])) =
      .ok ([], ['q'], ⟨.valid, ∅⟩) := rfl
  obtain ⟨a₁, h₁, -, haccepted₁⟩ := exists_of_reported hstandard
  obtain ⟨a₂, h₂, -, haccepted₂⟩ := exists_of_reported hstrict
  have hun : Untabbed ['w', 's', ':', '/', '/', 'a', 'b', '?', 'q'] := by
    rw [Untabbed]
    decide
  exact ⟨a₁, a₂, h₁, h₂, (parseUri_presets .string hun (by decide) h₁ h₂ haccepted₁
    haccepted₂).2 (.inl rfl) (.inl rfl)⟩

/-- The queries behind a path are left out by the strict preset. -/
theorem not_reportAlike_path :
    ¬ ∀ (kind : ContextKind) (out : kind.Out) (text : List Char), Untabbed text →
      schemeName text ∈ specialSchemes → ∀ a₁ a₂ : Ctx kind.Out,
      parseUri standardUriParsingOptions kind.output (startCtx out text) = .ok a₁ →
      parseUri strictUriParsingOptions kind.output (startCtx out text) = .ok a₂ →
      ¬a₁.Spoiled → ¬a₂.Spoiled → ReportAlike a₁ a₂ := by
  intro h
  have hstandard : reported (parseUri standardUriParsingOptions stringOutput
      (startCtx (fun _ => []) ['w', 's', ':', '/', '/', 'a', 'b', '/', '?', 'q'])) =
      .ok ([], ['q'], ⟨.valid, ∅⟩) := rfl
  have hstrict : reported (parseUri strictUriParsingOptions stringOutput
      (startCtx (fun _ => []) ['w', 's', ':', '/', '/', 'a', 'b', '/', '?', 'q'])) =
      .ok (['?', 'q'], [], ⟨.valid, ∅⟩) := rfl
  obtain ⟨a₁, h₁, -, haccepted₁⟩ := exists_of_reported hstandard
  obtain ⟨a₂, h₂, hpos, haccepted₂⟩ := exists_of_reported hstrict
  have hun : Untabbed ['w', 's', ':', '/', '/', 'a', 'b', '/', '?', 'q'] := by
    rw [Untabbed]
    decide
  have halike := h .string (fun _ => []) _ hun (by decide) a₁ a₂ h₁ h₂ haccepted₁ haccepted₂
  cases hpos.symm.trans halike.2

end Webpp.Uri
