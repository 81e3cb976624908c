import Webpp.Uri.HostRest
import Webpp.Uri.SafeAuthority

/-!
# Authorities under two presets

The rounds over credentials, host and port are the same under the two presets. They leave what
`hostRest` says is behind the host (`parseAuthority_left`), and only an IPv4 address can make a
difference behind them (`parseAuthority_alike`).
-/

namespace Webpp.Uri

open ComponentEncoder Loop Webpp.Text

variable {σ : Type} {O : Output σ}

/-! ## One round -/

/-- The loop of `parse_authority_pieces` is in the host of the text `T`. -/
structure InHost (T : List Char) (start : Ctx σ) (s : AuthorityState σ) : Prop where
  text : InText T s.coder.ctx.pos
  scheme : s.coder.ctx.scheme = start.scheme
  error : s.mustContainCredentials = true → s.coder.ctx.status.hasError = true

/-- How the loop is left. -/
inductive ExitLeft (R : List Char) (start : Ctx σ) : AuthorityExit σ → Prop where
  | returned {ctx : Ctx σ} (h : HostLeft R start ctx) : ExitLeft R start (.returned ctx)
  | path {s : AuthorityState σ} (hscheme : s.coder.ctx.scheme = start.scheme)
      (hvalue : s.coder.ctx.status.value = .validPath) (hpos : BehindHost R s.coder.ctx.pos)
      (hfront : Front s.coder.ctx.pos) (hhead : R.head? ≠ some '?' ∧ R.head? ≠ some '#') :
      ExitLeft R start (.broke s false)
  | tail {s : AuthorityState σ} {c : Char} {rest : List Char}
      (hscheme : s.coder.ctx.scheme = start.scheme) (hR : R = c :: rest)
      (hpos : s.coder.ctx.pos = R) (hvalue : c = '?' ∧ s.coder.ctx.status.value = .validQueries ∨
        c = '#' ∧ s.coder.ctx.status.value = .validFragment) : ExitLeft R start (.broke s true)

/-- What a round leads to. -/
abbrev HostFlow (T : List Char) (start : Ctx σ) : AuthorityFlow σ → Prop :=
  FlowSat (InHost T start) (ExitLeft (hostRest T) start)

section Rounds

variable {T : List Char} {start : Ctx σ} {s : AuthorityState σ} {c : Char} {rest : List Char}

theorem InHost.passed (h : InHost T start s) (hpos : s.coder.ctx.pos = c :: rest)
    (hc : hostRest (c :: rest) = hostRest rest) {e : ComponentEncoder σ}
    (hmoved : MovedTo rest s.coder.ctx e.ctx) : InHost T start (s.setCoder e) := by
  have htext := h.text
  rw [hpos] at htext
  refine ⟨?_, hmoved.scheme.trans h.scheme, fun hmust => ?_⟩
  · show InText T e.ctx.pos
    rw [hmoved.pos]
    exact htext.cons hc
  · show e.ctx.status.value.hasError = true
    rw [hmoved.value]
    exact h.error hmust

theorem ExitLeft.error {R : List Char} (start ctx : Ctx σ) {value : UriStatus}
    (hvalue : value.hasError = true) : ExitLeft R start (.returned (ctx.setError value)) :=
  .returned (.error hvalue)

theorem authorityBreak_left {s' : AuthorityState σ} {skipLastChar : Bool}
    (hmust : s'.mustContainCredentials = true → s'.coder.ctx.status.hasError = true)
    (h : ExitLeft (hostRest T) start (.broke s' skipLastChar)) :
    HostFlow T start (authorityBreak standardUriParsingOptions true s' skipLastChar) := by
  rw [authorityBreak]
  split
  · exact ExitLeft.returned (.error (hmust ‹_›))
  · split
    · exact ExitLeft.error start _ rfl
    · exact h

theorem authoritySlash_left (h : InHost T start s) (hpos : s.coder.ctx.pos = c :: rest)
    (hc : c = '/' ∨ c = '\\') :
    HostFlow T start (authoritySlash standardUriParsingOptions true s) := by
  have hrest : hostRest T = c :: rest := by
    rw [← h.text.rest, hpos]
    exact hostRest_stop (hc.elim .inl fun hc => .inr (.inl hc)) rest
  rw [authoritySlash]
  split
  · exact ExitLeft.returned (.error (h.error ‹_›))
  · rename_i hmust
    refine authorityBreak_left (fun hmust' => absurd hmust' hmust) ?_
    refine .path h.scheme rfl ?_ ?_ ?_
    · show BehindHost (hostRest T) s.coder.ctx.pos
      rw [hpos, hrest]
      exact .refl _
    · show Front s.coder.ctx.pos
      rw [hpos]
      rintro d ⟨⟩
      exact hc.imp_right .inl
    · rw [hrest]
      rcases hc with rfl | rfl
      · simp
      · simp

theorem authorityEndsAt_left (h : InHost T start s) (hpos : s.coder.ctx.pos = c :: rest)
    {value : UriStatus}
    (hvalue : c = '?' ∧ value = .validQueries ∨ c = '#' ∧ value = .validFragment) :
    Partly (HostFlow T start) (authorityEndsAt standardUriParsingOptions O true true value s) := by
  have hrest : hostRest T = c :: rest := by
    rw [← h.text.rest, hpos]
    refine hostRest_stop ?_ rest
    rcases hvalue with hquery | hhash
    · exact .inr (.inr (.inl hquery.1))
    · exact .inr (.inr (.inr hhash.1))
  rw [authorityEndsAt]
  split
  · exact ExitLeft.returned (.error (h.error ‹_›))
  · rename_i hmust
    refine authorityBreak_left (fun hmust' => absurd hmust' hmust) ?_
    exact .tail h.scheme hrest (hpos.trans hrest.symm) hvalue

theorem authorityColon_left (hun : Untabbed T) (h : InHost T start s)
    (hpos : s.coder.ctx.pos = ':' :: rest) :
    Partly (HostFlow T start) (authorityColon standardUriParsingOptions O true s) := by
  have htext := h.text
  rw [hpos] at htext
  have hunrest : Untabbed rest := (hun.of_suffix htext.suffix).tail
  rw [authorityColon]
  simp only
  rw [if_neg (by decide), if_neg (by decide), hpos, advance_one_cons, ok_bind]
  have hport : Partly (PortLeft rest ((s.coder.setPos rest).setValid .validPort).ctx)
      (parsePort standardUriParsingOptions O ((s.coder.setPos rest).setValid .validPort).ctx) :=
    parsePort_left O hunrest
  refine hport.bind fun ctx hctx => ?_
  split
  · rename_i hvalue
    obtain ⟨hscheme, hfollows⟩ := hctx.of_portInvalid hvalue
    refine ⟨htext.cons ?_, hscheme.trans h.scheme, fun _ => ?_⟩
    · rw [hostRest_colon, hfollows, if_neg Bool.false_ne_true]
    · show ctx.status.value.hasError = true
      rw [hvalue]
      rfl
  · rename_i hvalue
    have hend := endSegmentOf_movedTo O .host { s.coder with ctx := ctx } s.coder.beg
      (':' :: rest)
    have hset := setValueOf_movedTo O .host (endSegmentOf O .host s.coder.beg
      (':' :: rest) { s.coder with ctx := ctx }) s.hostBegin (':' :: rest)
    rw [hend.pos] at hset
    have hmoved := hend.trans hset
    generalize setValueOf O .host s.hostBegin (':' :: rest)
      (endSegmentOf O .host s.coder.beg (':' :: rest) { s.coder with ctx := ctx }) = e at hmoved
    have hleft : HostLeft (hostRest T) start e.ctx := by
      rw [← htext.rest]
      exact ((hctx.hostLeft hvalue).moved hmoved).of_scheme h.scheme
    split
    · exact ExitLeft.error start _ rfl
    · exact ExitLeft.returned hleft

theorem authorityAtsign_left (authorityBegin : List Char) (h : InHost T start s)
    (hpos : s.coder.ctx.pos = '@' :: rest) :
    Partly (HostFlow T start)
      (authorityAtsign standardUriParsingOptions O authorityBegin s) := by
  have hcred := parseCredentials_movedTo O authorityBegin s.colonPos s.coder.ctx
  rw [authorityAtsign, if_pos (by decide)]
  generalize parseCredentials O authorityBegin s.colonPos s.coder.ctx = ctx at hcred
  simp only
  rw [show advance ctx.pos 1 = .ok rest by rw [hcred.pos, hpos, advance_one_cons], ok_bind]
  have hmoved : MovedTo rest s.coder.ctx { ctx with pos := rest, out := O.clear .host ctx.out } :=
    (hcred.setPos rest).setOut _
  have hstart := startSegment_movedTo O .host
    (resetBegin { s.coder with ctx := { ctx with pos := rest, out := O.clear .host ctx.out } })
  have hpassed := h.passed hpos (hostRest_cons (by decide) rest) (hmoved.trans hstart)
  exact ⟨hpassed.text, hpassed.scheme, fun hmust => absurd hmust Bool.false_ne_true⟩

theorem authoritySwitch_left (authorityBegin : List Char) (hun : Untabbed T)
    (h : InHost T start s) (hpos : s.coder.ctx.pos = c :: rest) :
    Partly (HostFlow T start)
      (authoritySwitch standardUriParsingOptions O true authorityBegin s c) := by
  have hhead : isTabOrNewline c = false ∧ c ≠ '\x00' := by
    have hsuffix := h.text.suffix
    rw [hpos] at hsuffix
    exact (hun.of_suffix hsuffix).head
  rw [authoritySwitch.eq_def]
  simp only
  split
  · have hrest : hostRest T = hostRest ('[' :: rest) := by rw [← h.text.rest, hpos]
    refine (parseHostIpv6_left O hpos).bind fun ctx hctx => ?_
    rw [← hrest] at hctx
    exact ExitLeft.returned (hctx.of_scheme h.scheme)
  · exact authorityColon_left hun h hpos
  · exact authoritySlash_left h hpos (.inr rfl)
  · exact authoritySlash_left h hpos (.inl rfl)
  · refine (nextSegment_cons hpos).partly.bind fun e he => ?_
    exact h.passed hpos (hostRest_cons (by decide) rest) he
  · exact authorityEndsAt_left h hpos (.inl ⟨rfl, rfl⟩)
  · exact authorityEndsAt_left h hpos (.inr ⟨rfl, rfl⟩)
  · exact ExitLeft.error start _ rfl
  · exact absurd hhead.1 (by decide)
  · exact absurd hhead.1 (by decide)
  · exact absurd hhead.1 (by decide)
  · exact authorityAtsign_left authorityBegin h hpos
  · exact absurd rfl hhead.2
  · exact ExitLeft.error start _ rfl

theorem authorityAt_left (authorityBegin : List Char) (hun : Untabbed T)
    {r : Bool × ComponentEncoder σ} (h : InHost T start (s.setCoder r.2))
    (hend : r.1 = true → r.2.ctx.pos = []) :
    Partly (HostFlow T start)
      (authorityAt standardUriParsingOptions O true authorityBegin s r) := by
  rw [authorityAt]
  split
  · rename_i htrue
    have hnil := hend htrue
    have hrest : hostRest T = [] := by
      rw [← h.text.rest, show (s.setCoder r.2).coder.ctx.pos = [] from hnil]
      rfl
    rw [if_neg (by simp)]
    refine ExitLeft.path h.scheme rfl ?_ ?_ ?_
    · show BehindHost (hostRest T) r.2.ctx.pos
      rw [hnil, hrest]
      exact .refl _
    · show Front r.2.ctx.pos
      rw [hnil]
      simp [Front]
    · rw [hrest]
      simp
  · cases hpos : r.2.ctx.pos with
    | nil =>
        rw [show (s.setCoder r.2).coder.ctx.pos = [] from hpos]
        trivial
    | cons c rest =>
        rw [show (s.setCoder r.2).coder.ctx.pos = c :: rest from hpos, deref_cons, ok_bind]
        exact authoritySwitch_left authorityBegin hun h hpos

theorem InHost.searched (h : InHost T start s) {r : Bool × ComponentEncoder σ}
    (htext : InText s.coder.ctx.pos r.2.ctx.pos)
    (hmoved : MovedTo r.2.ctx.pos s.coder.ctx r.2.ctx) :
    InHost T start (s.setCoder r.2) := by
  refine ⟨h.text.trans htext, hmoved.scheme.trans h.scheme, fun hmust => ?_⟩
  show r.2.ctx.status.value.hasError = true
  rw [hmoved.value]
  exact h.error hmust

theorem authorityStep_left (authorityBegin : List Char) (hun : Untabbed T)
    (h : InHost T start s) :
    Partly (HostFlow T start)
      (authorityStep standardUriParsingOptions O true authorityBegin s) := by
  rw [authorityStep_eq]
  refine (decodeOrTolower_rest O s.coder).bind fun r hr => ?_
  exact authorityAt_left authorityBegin hun (h.searched hr.1 hr.2.1) hr.2.2.2

/-! ## The presets -/

theorem authoritySwitch_alike (authorityBegin : List Char)
    (hc : isTabOrNewline c = false ∧ c ≠ '\x00') :
    authoritySwitch standardUriParsingOptions O true authorityBegin s c =
      authoritySwitch strictUriParsingOptions O true authorityBegin s c := by
  rw [authoritySwitch.eq_def, authoritySwitch.eq_def]
  split
  · rfl
  · rfl
  · rfl
  · rfl
  · rfl
  · rfl
  · rfl
  · rfl
  · exact absurd hc.1 (by decide)
  · exact absurd hc.1 (by decide)
  · exact absurd hc.1 (by decide)
  · rfl
  · exact absurd rfl hc.2
  · rfl

theorem authorityStep_alike (authorityBegin : List Char) (hun : Untabbed s.coder.ctx.pos) :
    authorityStep standardUriParsingOptions O true authorityBegin s =
      authorityStep strictUriParsingOptions O true authorityBegin s := by
  have hsearch := decodeOrTolower_rest O s.coder
  rw [authorityStep_eq, authorityStep_eq]
  show decodeOrTolower O .host (authorityInteresting O true) s.coder >>= _ =
    decodeOrTolower O .host (authorityInteresting O true) s.coder >>= _
  cases hr : decodeOrTolower O .host (authorityInteresting O true) s.coder with
  | error fault => rfl
  | ok r =>
      rw [hr] at hsearch
      rw [ok_bind, ok_bind, authorityAt, authorityAt]
      split
      · rfl
      · cases hpos : r.2.ctx.pos with
        | nil =>
            rw [show (s.setCoder r.2).coder.ctx.pos = [] from hpos]
            rfl
        | cons c rest =>
            rw [show (s.setCoder r.2).coder.ctx.pos = c :: rest from hpos, deref_cons, ok_bind,
              ok_bind]
            have hsuffix := hsearch.1.suffix
            rw [hpos] at hsuffix
            exact authoritySwitch_alike authorityBegin (hun.of_suffix hsuffix).head

end Rounds

/-! ## The end of the host -/

/-- The host is stored as it is. -/
def storeHost (O : Output σ) (s : AuthorityState σ) (skipLastChar : Bool) (ctx : Ctx σ) :
    Run (Ctx σ) :=
  skipLast skipLastChar (setValue O .host (endSegment O .host { s.coder with ctx := ctx }))

/-- The host is an address. -/
def storeAddress (O : Output σ) (s : AuthorityState σ) (skipLastChar : Bool) (octets : List ℕ)
    (ctx : Ctx σ) : Run (Ctx σ) :=
  if O.isModifiable then
    skipLast skipLastChar (appendTo O .host (ipv4Text octets)
      (startSegment O .host ({ s.coder with ctx := ctx }.setOut (O.clear .host ctx.out))))
  else storeHost O s skipLastChar ctx

/-- What is made of the result of `parse_host_ipv4`. -/
def hostAddress (O : Output σ) (s : AuthorityState σ) (skipLastChar : Bool)
    (r : Option (List ℕ) × Ctx σ) : Run (Ctx σ) :=
  r.1.elim (pure r.2) fun octets => storeAddress O s skipLastChar octets r.2

section HostEnd

variable {o : Options} {s : AuthorityState σ} {skipLastChar : Bool} {R : List Char}
  {start ctx : Ctx σ}

theorem authorityHostEnd_eq (o : Options) (O : Output σ) (s : AuthorityState σ)
    (skipLastChar : Bool) :
    authorityHostEnd o O s skipLastChar =
      isPossibleEndsWithIpv4 o s.hostBegin s.coder.ctx >>= fun r =>
        if r.1 then
          parseHostIpv4 o (slice s.hostBegin r.2.pos) r.2 >>= hostAddress O s skipLastChar
        else storeHost O s skipLastChar r.2 := by
  rw [authorityHostEnd]
  congr
  funext r
  split
  · refine congrArg (parseHostIpv4 o (slice s.hostBegin r.2.pos) r.2 >>= ·) (funext fun r' => ?_)
    obtain ⟨octets, ctx⟩ := r'
    cases octets with
    | none => rfl
    | some octets => rfl
  · rfl

theorem pruneDots_moved (start : ℕ) (before : List Char) (ctx : Ctx σ) :
    Partly (fun r => MovedTo ctx.pos ctx r.2) (pruneDots o start before ctx) := by
  induction before generalizing ctx with
  | nil => trivial
  | cons c before ih =>
      have hwarned : MovedTo ctx.pos ctx (ctx.setWarning .ipv4TrailingEmptyOctet) :=
        (MovedTo.refl ctx).setWarning _
      rw [pruneDots]
      split
      · simp only
        split
        · exact hwarned
        · split
          · exact (ih _).mono fun r hr => hwarned.trans hr
          · exact hwarned
      · exact MovedTo.refl ctx

theorem isPossibleEndsWithIpv4_moved (o : Options) (hostBegin : List Char) (ctx : Ctx σ) :
    Partly (fun r => MovedTo ctx.pos ctx r.2) (isPossibleEndsWithIpv4 o hostBegin ctx) := by
  rw [isPossibleEndsWithIpv4]
  refine (pruneDots_moved _ _ ctx).bind fun r hr => ?_
  split
  · exact hr
  · rename_i before hbefore
    cases endsWithOctet (ctx.beg.length - hostBegin.length) before false with
    | error fault => trivial
    | ok found => exact hr

theorem skipLast_further (skipLastChar : Bool) (e : ComponentEncoder σ) :
    Partly (Grows e.ctx) (skipLast skipLastChar e) := by
  rw [skipLast]
  split
  · exact (ignoreCharacter_further e 1).bind fun e' he => he.ctx
  · exact Grows.refl e.ctx

theorem skipLast_left {e : ComponentEncoder σ}
    (hleft : ExitLeft R start (.broke s skipLastChar))
    (hmoved : MovedTo s.coder.ctx.pos s.coder.ctx e.ctx) :
    Partly (HostLeft R start) (skipLast skipLastChar e) := by
  cases hleft with
  | path hscheme hvalue hpos hfront hhead =>
      exact (HostLeft.path hscheme (.inl hvalue) hpos hfront hhead).moved hmoved
  | tail hscheme hR hpos hvalue =>
      rw [hpos, hR] at hmoved
      refine (ignoreCharacter_cons hmoved.pos).partly.bind fun e' he' => ?_
      have hmoved' := hmoved.trans he'
      rw [← hmoved'.value] at hvalue
      refine HostLeft.tail (hmoved'.scheme.trans hscheme) ?_ hvalue
      rw [hmoved'.pos]
      exact hR

theorem storeHost_left (hleft : ExitLeft R start (.broke s skipLastChar))
    (hmoved : MovedTo s.coder.ctx.pos s.coder.ctx ctx) :
    Partly (HostLeft R start) (storeHost O s skipLastChar ctx) := by
  have hset := setValue_endSegment_movedTo O .host { s.coder with ctx := ctx }
  rw [show ({ s.coder with ctx := ctx } : ComponentEncoder σ).ctx.pos = s.coder.ctx.pos from
    hmoved.pos] at hset
  exact skipLast_left hleft (hmoved.trans hset)

theorem storeHost_grows (O : Output σ) (s : AuthorityState σ) (skipLastChar : Bool) (ctx : Ctx σ) :
    Partly (Grows ctx) (storeHost O s skipLastChar ctx) := by
  refine (skipLast_further skipLastChar _).mono fun a ha => ?_
  exact ((endSegment_further O .host { s.coder with ctx := ctx }).trans
    (setValue_further O .host _)).ctx.trans ha

theorem storeAddress_left (octets : List ℕ) (hleft : ExitLeft R start (.broke s skipLastChar))
    (hmoved : MovedTo s.coder.ctx.pos s.coder.ctx ctx) :
    Partly (HostLeft R start) (storeAddress O s skipLastChar octets ctx) := by
  rw [storeAddress]
  split
  · have hstart := startSegment_movedTo O .host
      ({ s.coder with ctx := ctx }.setOut (O.clear .host ctx.out))
    rw [show (({ s.coder with ctx := ctx } : ComponentEncoder σ).setOut
      (O.clear .host ctx.out)).ctx.pos = s.coder.ctx.pos from hmoved.pos] at hstart
    have happend := appendTo_movedTo O .host (startSegment O .host
      ({ s.coder with ctx := ctx }.setOut (O.clear .host ctx.out))) (ipv4Text octets)
    rw [hstart.pos] at happend
    exact skipLast_left hleft (((hmoved.setOut _).trans hstart).trans happend)
  · exact storeHost_left hleft hmoved

theorem storeAddress_grows (O : Output σ) (s : AuthorityState σ) (skipLastChar : Bool)
    (octets : List ℕ) (ctx : Ctx σ) :
    Partly (Grows ctx) (storeAddress O s skipLastChar octets ctx) := by
  rw [storeAddress]
  split
  · refine (skipLast_further skipLastChar _).mono fun a ha => ?_
    refine Grows.trans ?_ ha
    exact (((Further.refl { s.coder with ctx := ctx }).setOut (O.clear .host ctx.out)).trans
      (startSegment_further O .host _)).trans (appendTo_further O .host _ _) |>.ctx
  · exact storeHost_grows O s skipLastChar ctx

theorem authorityHostEnd_left (hleft : ExitLeft R start (.broke s skipLastChar)) :
    Partly (HostLeft R start) (authorityHostEnd o O s skipLastChar) := by
  rw [authorityHostEnd_eq]
  refine (isPossibleEndsWithIpv4_moved o s.hostBegin s.coder.ctx).bind fun r hr => ?_
  split
  · refine (parseHostIpv4_left o _ r.2).bind fun r' hr' => ?_
    cases hr' with
    | refused herror => exact HostLeft.error herror
    | read octets hkept =>
        have hmoved := hkept.moved
        rw [hr.pos] at hmoved
        exact storeAddress_left octets hleft (hr.trans hmoved)
  · exact storeHost_left hleft hr

/-! ## The presets behind the host -/

theorem isPossibleEndsWithIpv4_alike (hostBegin : List Char) (ctx : Ctx σ) :
    isPossibleEndsWithIpv4 standardUriParsingOptions hostBegin ctx =
      isPossibleEndsWithIpv4 strictUriParsingOptions hostBegin ctx := by
  have hprune (start : ℕ) (before : List Char) (ctx : Ctx σ) :
      pruneDots standardUriParsingOptions start before ctx =
        pruneDots strictUriParsingOptions start before ctx := by
    cases before with
    | nil => rfl
    | cons c before => rfl
  rw [isPossibleEndsWithIpv4, isPossibleEndsWithIpv4, hprune]

/-- A warning behind the host, which only the parsers of the rest can follow. -/
structure LateWarned (start a : Ctx σ) : Prop where
  warnings : a.status.warnings ≠ ∅
  value : a.status.value = .validPath ∨ a.status.value.Ends
  scheme : a.scheme = start.scheme

theorem ExitLeft.lateWarned (hleft : ExitLeft R start (.broke s skipLastChar)) {c a : Ctx σ}
    (hmoved : MovedTo s.coder.ctx.pos s.coder.ctx c) (hwarned : c.status.warnings ≠ ∅)
    (hgrows : Grows c a) : LateWarned start a := by
  have hstart : s.coder.ctx.scheme = start.scheme ∧
      (s.coder.ctx.status.value = .validPath ∨ s.coder.ctx.status.value.Ends) := by
    cases hleft with
    | path hscheme hvalue hpos hfront hhead => exact ⟨hscheme, .inl hvalue⟩
    | tail hscheme hR hpos hvalue =>
        rcases hvalue with hquery | hhash
        · exact ⟨hscheme, .inr (.inr (.inl hquery.2))⟩
        · exact ⟨hscheme, .inr (.inr (.inr hhash.2))⟩
  refine ⟨fun hclean => hwarned (hgrows.clean hclean), ?_,
    (hgrows.scheme.trans hmoved.scheme).trans hstart.1⟩
  rcases hgrows.value with hvalue | hends
  · rw [hvalue, hmoved.value]
    exact hstart.2
  · exact .inr hends

/-- The contexts that the presets leave, from the context `start` on. -/
def HostAlike (start a₁ a₂ : Ctx σ) : Prop :=
  a₁ = a₂ ∨ LateWarned start a₁ ∨ a₁.status.hasError = true ∨ a₂.status.hasError = true

/-- The result of `parse_host_ipv4` under the presets: an address that one of them refuses is an
error, and one that they read differently a warning. -/
theorem hostAddress_alike (hleft : ExitLeft R start (.broke s skipLastChar)) {host : List Char}
    (hmoved : MovedTo s.coder.ctx.pos s.coder.ctx ctx) {p₁ p₂ : Option (List ℕ) × Ctx σ}
    (hp₁ : parseHostIpv4 standardUriParsingOptions host ctx = .ok p₁)
    (hp₂ : parseHostIpv4 strictUriParsingOptions host ctx = .ok p₂) {a₁ a₂ : Ctx σ}
    (h₁ : hostAddress O s skipLastChar p₁ = .ok a₁)
    (h₂ : hostAddress O s skipLastChar p₂ = .ok a₂) : HostAlike start a₁ a₂ := by
  have hleft₁ := parseHostIpv4_left standardUriParsingOptions host ctx
  have hleft₂ := parseHostIpv4_left strictUriParsingOptions host ctx
  rw [hp₁] at hleft₁
  rw [hp₂] at hleft₂
  cases hleft₁ with
  | refused herror =>
      cases h₁
      exact .inr (.inr (.inl herror))
  | read octets₁ hkept₁ =>
      rename_i c₁
      cases hleft₂ with
      | refused herror =>
          cases h₂
          exact .inr (.inr (.inr herror))
      | read octets₂ hkept₂ =>
          rcases parseHostIpv4_alike hp₁ hp₂ with ⟨rfl, rfl⟩ | hwarned
          · exact .inl (Except.ok.inj (h₁.symm.trans h₂))
          · have hgrows := storeAddress_grows O s skipLastChar octets₁ c₁
            rw [show storeAddress O s skipLastChar octets₁ c₁ = .ok a₁ from h₁] at hgrows
            have hkept := hkept₁.moved
            rw [hmoved.pos] at hkept
            exact .inr (.inl (hleft.lateWarned (hmoved.trans hkept) hwarned hgrows))

theorem authorityHostEnd_alike (hleft : ExitLeft R start (.broke s skipLastChar)) {a₁ a₂ : Ctx σ}
    (h₁ : authorityHostEnd standardUriParsingOptions O s skipLastChar = .ok a₁)
    (h₂ : authorityHostEnd strictUriParsingOptions O s skipLastChar = .ok a₂) :
    HostAlike start a₁ a₂ := by
  have hmoved := isPossibleEndsWithIpv4_moved standardUriParsingOptions s.hostBegin s.coder.ctx
  rw [authorityHostEnd_eq] at h₁ h₂
  rw [← isPossibleEndsWithIpv4_alike] at h₂
  cases hr : isPossibleEndsWithIpv4 standardUriParsingOptions s.hostBegin s.coder.ctx with
  | error fault =>
      rw [hr] at h₁
      cases h₁
  | ok r =>
      rw [hr] at hmoved
      rw [hr, ok_bind] at h₁ h₂
      split at h₁
      · rename_i hfound
        rw [if_pos hfound] at h₂
        obtain ⟨p₁, hp₁, h₁⟩ := exists_of_bind_eq_ok h₁
        obtain ⟨p₂, hp₂, h₂⟩ := exists_of_bind_eq_ok h₂
        exact hostAddress_alike hleft hmoved hp₁ hp₂ h₁ h₂
      · rename_i hfound
        rw [if_neg hfound] at h₂
        exact .inl (Except.ok.inj (h₁.symm.trans h₂))

end HostEnd

/-! ## `parse_authority` -/

/-- What follows the loop of `parse_authority_pieces`. -/
def authorityFinish (o : Options) (O : Output σ) : AuthorityExit σ → Run (Ctx σ)
  | .returned ctx => pure ctx
  | .broke s skipLastChar => authorityHostEnd o O s skipLastChar

section Authority

variable {o : Options} {ctx : Ctx σ}

theorem parseAuthorityPieces_eq (o : Options) (O : Output σ) (ctx : Ctx σ) :
    parseAuthorityPieces o O true ctx =
      loop (authorityStep o O true ctx.pos) .diverges (ctx.pos.length + 1)
        ⟨startSegment O .host (ofCtx ctx), ctx.pos, [], false⟩ >>= authorityFinish o O := by
  rw [parseAuthorityPieces]
  refine congrArg (loop _ _ _ _ >>= ·) (funext fun exit => ?_)
  cases exit with
  | returned ctx => rfl
  | broke s skipLastChar => rfl

theorem inHost_start (O : Output σ) (ctx : Ctx σ) :
    InHost ctx.pos ctx ⟨startSegment O .host (ofCtx ctx), ctx.pos, [], false⟩ := by
  have hstart := startSegment_movedTo O .host (ofCtx ctx)
  refine ⟨?_, hstart.scheme, fun hmust => absurd hmust Bool.false_ne_true⟩
  show InText ctx.pos (startSegment O .host (ofCtx ctx)).ctx.pos
  rw [hstart.pos]
  exact ⟨List.suffix_refl _, rfl⟩

theorem authority_loop_left {T : List Char} {start : Ctx σ} (authorityBegin : List Char)
    (hun : Untabbed T) {n : ℕ} {s : AuthorityState σ} {exit : AuthorityExit σ}
    (hs : InHost T start s)
    (h : loop (authorityStep standardUriParsingOptions O true authorityBegin) .diverges n s =
      .ok exit) : ExitLeft (hostRest T) start exit :=
  loop_partly (InHost T start) (ExitLeft (hostRest T) start)
    (fun _ hs => authorityStep_left authorityBegin hun hs) hs h

theorem authority_loop_alike {T : List Char} {start : Ctx σ} (authorityBegin : List Char)
    (hun : Untabbed T) {s : AuthorityState σ} (hs : InHost T start s) (n : ℕ) :
    loop (authorityStep standardUriParsingOptions O true authorityBegin) .diverges n s =
      loop (authorityStep strictUriParsingOptions O true authorityBegin) .diverges n s := by
  refine loop_congr (InHost T start) (fun s hs => ?_) (fun s s' hs hround => ?_) hs n
  · exact authorityStep_alike authorityBegin (hun.of_suffix hs.text.suffix)
  · have hleft := authorityStep_left (O := O) authorityBegin hun hs
    rw [hround] at hleft
    exact hleft

theorem parseAuthorityPieces_left (hun : Untabbed ctx.pos) :
    Partly (HostLeft (hostRest ctx.pos) ctx)
      (parseAuthorityPieces standardUriParsingOptions O true ctx) := by
  rw [parseAuthorityPieces_eq]
  cases hloop : loop (authorityStep standardUriParsingOptions O true ctx.pos) .diverges
      (ctx.pos.length + 1) ⟨startSegment O .host (ofCtx ctx), ctx.pos, [], false⟩ with
  | error fault => trivial
  | ok exit =>
      have hleft := authority_loop_left ctx.pos hun (inHost_start O ctx) hloop
      cases exit with
      | returned ctx' =>
          cases hleft with
          | returned h => exact h
      | broke s skipLastChar => exact authorityHostEnd_left hleft

theorem parseAuthorityPieces_alike (hun : Untabbed ctx.pos) {a₁ a₂ : Ctx σ}
    (h₁ : parseAuthorityPieces standardUriParsingOptions O true ctx = .ok a₁)
    (h₂ : parseAuthorityPieces strictUriParsingOptions O true ctx = .ok a₂) :
    HostAlike ctx a₁ a₂ := by
  rw [parseAuthorityPieces_eq] at h₁ h₂
  rw [← authority_loop_alike ctx.pos hun (inHost_start O ctx)] at h₂
  cases hloop : loop (authorityStep standardUriParsingOptions O true ctx.pos) .diverges
      (ctx.pos.length + 1) ⟨startSegment O .host (ofCtx ctx), ctx.pos, [], false⟩ with
  | error fault =>
      rw [hloop] at h₁
      cases h₁
  | ok exit =>
      have hleft := authority_loop_left ctx.pos hun (inHost_start O ctx) hloop
      rw [hloop, ok_bind] at h₁ h₂
      cases exit with
      | returned ctx' =>
          cases h₁
          cases h₂
          exact .inl rfl
      | broke s skipLastChar => exact authorityHostEnd_alike hleft h₁ h₂

theorem authorityStart_special (hempty : o.emptyHostIsError = true)
    (hcredentials : o.parseCredentails = true) {c : Char} {pos : List Char}
    (hhead : isTabOrNewline c = false ∧ c ≠ '\x00') (hscheme : ctx.scheme = .specialScheme)
    (hpos : ctx.pos = c :: pos) :
    authorityStart o (c :: pos) ctx =
      .ok (if c = '?' ∨ c = '\\' ∨ c = '/' ∨ c = '#' then (false, ctx.setError .hostMissing)
        else (true, ctx)) := by
  have hctx : ({ ctx with pos := c :: pos } : Ctx σ) = ctx := by rw [← hpos]
  have hspecial : isSpecialScheme ctx.scheme = true := by
    rw [hscheme]
    rfl
  rw [authorityStart]
  simp only [hctx, hspecial, hempty, hcredentials, hhead.1, hhead.2, if_true, if_false,
    Bool.not_true, Bool.false_eq_true, and_false, false_and]
  by_cases hcolon : c = ':'
  · rw [if_pos hcolon, if_neg (by rw [hcolon]; decide)]
    rfl
  · rw [if_neg hcolon]
    split
    · rfl
    · rfl

/-- `parse_authority` of a special URI that is no file. -/
theorem parseAuthority_eq (O : Output σ) (hempty : o.emptyHostIsError = true)
    (hcredentials : o.parseCredentails = true) (hun : Untabbed ctx.pos)
    (hscheme : ctx.scheme = .specialScheme) :
    parseAuthority o O ctx =
      if ctx.pos.head?.all (['?', '\\', '/', '#'].contains ·) then
        .ok (ctx.setError .hostMissing)
      else parseAuthorityPieces o O true ctx := by
  have hfile : ¬(o.allowFileHosts && isFileScheme ctx.scheme) = true := by
    rw [hscheme, show isFileScheme .specialScheme = false from rfl, Bool.and_false]
    exact Bool.false_ne_true
  have hspecial : isSpecialScheme ctx.scheme = true := by
    rw [hscheme]
    rfl
  rw [parseAuthority]
  cases hpos : ctx.pos with
  | nil =>
      rw [if_pos rfl, hempty]
      rfl
  | cons c pos =>
      rw [hpos] at hun
      rw [if_neg (List.cons_ne_nil c pos), if_neg hfile,
        authorityStart_special hempty hcredentials hun.head hscheme hpos, ok_bind]
      by_cases hstop : c = '?' ∨ c = '\\' ∨ c = '/' ∨ c = '#'
      · simp [hstop]
        rfl
      · simp [hstop, hspecial]

theorem parseAuthority_left (hun : Untabbed ctx.pos) (hscheme : ctx.scheme = .specialScheme) :
    Partly (HostLeft (hostRest ctx.pos) ctx) (parseAuthority standardUriParsingOptions O ctx) := by
  rw [parseAuthority_eq O rfl rfl hun hscheme]
  split
  · exact .error rfl
  · exact parseAuthorityPieces_left hun

theorem parseAuthority_alike (hun : Untabbed ctx.pos) (hscheme : ctx.scheme = .specialScheme)
    {a₁ a₂ : Ctx σ} (h₁ : parseAuthority standardUriParsingOptions O ctx = .ok a₁)
    (h₂ : parseAuthority strictUriParsingOptions O ctx = .ok a₂) : HostAlike ctx a₁ a₂ := by
  rw [parseAuthority_eq O rfl rfl hun hscheme] at h₁ h₂
  split at h₁
  · rename_i hstop
    rw [if_pos hstop] at h₂
    exact .inl (Except.ok.inj (h₁.symm.trans h₂))
  · rename_i hstop
    rw [if_neg hstop] at h₂
    exact parseAuthorityPieces_alike hun h₁ h₂

end Authority

end Webpp.Uri
