import Webpp.Uri.Authority
import Webpp.Uri.SafeHost
import Webpp.Uri.SafePath

/-!
# Safety of authorities

Ports, the loop over credentials and host, the host of a file, and what comes before and
behind an authority.
-/

namespace Webpp.Uri

open ComponentEncoder Ctx Loop Webpp.Text

variable {σ : Type} (o : Options) (O : Output σ) {pos : List Char} {e : ComponentEncoder σ}
  {c : Char} {ctx : Ctx σ} {value : UriStatus}

/-- A search that passes over ignored characters ends before the end of the text. -/
def SkipsInside (pos : List Char) : Prop :=
  ∃ c ∈ pos, ¬ (isTabOrNewline c = true ∧ o.ignoreTabsOrNewlines = true)

variable {o} in
theorem SkipsInside.tail (h : SkipsInside o (c :: pos))
    (htab : isTabOrNewline c = true ∧ o.ignoreTabsOrNewlines = true) : SkipsInside o pos := by
  obtain ⟨d, hd, hskip⟩ := h
  rcases List.mem_cons.mp hd with rfl | hd
  · exact absurd htab hskip
  · exact ⟨d, hd, hskip⟩

/-! ## Ports -/

theorem portLoop_spec (pos : List Char) (value : ℕ) (ctx : Ctx σ) :
    (portLoop o pos value ctx).2.beg = ctx.beg ∧ (portLoop o pos value ctx).2.pos <:+ pos ∧
      ((portLoop o pos value ctx).1 = none →
        (portLoop o pos value ctx).2.status.value.rank = 0) ∧
      ((portLoop o pos value ctx).1 ≠ none →
        (portLoop o pos value ctx).2.pos.head? ≠ some '0') := by
  induction pos generalizing value ctx with
  | nil =>
      exact ⟨rfl, List.suffix_refl _, fun h => absurd h (Option.some_ne_none _), by simp [portLoop]⟩
  | cons c pos ih =>
      have hcons : pos <:+ c :: pos := List.suffix_cons ..
      rw [portLoop]
      split
      · split
        · exact ⟨rfl, hcons, fun _ => rfl, fun h => absurd rfl h⟩
        · obtain ⟨hbeg, hpos, hrest⟩ := ih (value * 10 + digitValue c) ctx
          exact ⟨hbeg, hpos.trans hcons, hrest⟩
      · rename_i hdigit
        split
        · refine ⟨rfl, List.suffix_refl _, fun h => absurd h (Option.some_ne_none _), fun _ h => ?_⟩
          cases h
          exact hdigit (by decide)
        · split
          · obtain ⟨hbeg, hpos, hrest⟩ := ih value (ctx.setWarning .invalidCharacter)
            exact ⟨hbeg, hpos.trans hcons, hrest⟩
          · exact ⟨rfl, List.suffix_refl _, fun _ => rfl, fun h => absurd rfl h⟩

theorem skipLeadingZeros_safe {pos beg : List Char} (hsuffix : pos <:+ beg) (hne : beg ≠ [])
    (hhead : pos.head? ≠ some '0') : Safe (fun _ => True) (skipLeadingZeros pos beg) := by
  induction beg with
  | nil => exact absurd rfl hne
  | cons c beg ih =>
      rw [skipLeadingZeros]
      split
      · trivial
      · rename_i hlength
        split
        · rename_i hzero
          subst hzero
          rcases List.suffix_cons_iff.mp hsuffix with rfl | hsuffix
          · exact absurd rfl hhead
          · refine ih hsuffix ?_
            rintro rfl
            rw [List.suffix_nil.mp hsuffix] at hlength
            exact hlength rfl
        · trivial

theorem parsePort_safe (ho : o.parsePort = true ∨ ctx.pos = []) :
    Safe (Lowers 5 ctx) (parsePort o O ctx) := by
  obtain ⟨hbeg, hpos, herror, hhead⟩ := portLoop_spec o ctx.pos 0 ctx
  rw [parsePort]
  split
  · exact ⟨rfl, List.suffix_refl _, show UriStatus.rank .valid < 5 by decide⟩
  · rename_i hne
    rw [ho.resolve_right hne, Bool.not_true, if_neg Bool.false_ne_true]
    generalize portLoop o ctx.pos 0 ctx = r at hbeg hpos herror hhead
    simp only
    split
    · rename_i hnone
      refine ⟨hbeg, hpos, ?_⟩
      rw [herror hnone]
      exact Nat.succ_pos _
    · rename_i value hsome
      rw [hsome] at hhead
      refine (skipLeadingZeros_safe hpos hne (hhead (Option.some_ne_none value))).bind
        fun beg _ => ?_
      exact ⟨hbeg, hpos, show UriStatus.rank .validAuthorityEnd < 5 by decide⟩

/-! ## Credentials -/

theorem encodeOrSet_movedTo (comp : Components) (start stop : List Char)
    (policyChars : AsciiBitmap) (e : ComponentEncoder σ) :
    MovedTo e.ctx.pos e.ctx (encodeOrSet O comp start stop policyChars e).ctx := by
  rw [encodeOrSet]
  split
  · exact appendTo_movedTo O comp e _
  · exact setValueOf_movedTo O comp e start stop

theorem resetAndEncode_movedTo (comp : Components) (beg fin : List Char) (ctx : Ctx σ) :
    MovedTo ctx.pos ctx (resetAndEncode O comp beg fin ctx) :=
  ((MovedTo.refl ctx).setOut _).trans (encodeOrSet_movedTo O comp beg fin userInfoEncodeSet
    (ofCtx { ctx with out := O.clear comp ctx.out }))

theorem parseCredentials_movedTo (beg passwordTokenPos : List Char) (ctx : Ctx σ) :
    MovedTo ctx.pos ctx (parseCredentials O beg passwordTokenPos ctx) := by
  have hwarned : MovedTo ctx.pos ctx (ctx.setWarning .hasCredentials) :=
    (MovedTo.refl ctx).setWarning _
  rw [parseCredentials]
  split
  · exact hwarned
  · simp only
    generalize (if passwordTokenPos.length < (ctx.setWarning .hasCredentials).pos.length then
      (ctx.setWarning .hasCredentials).pos else passwordTokenPos) = fin
    have husername := resetAndEncode_movedTo O .username beg fin (ctx.setWarning .hasCredentials)
    have hmoved := hwarned.trans husername
    split
    · exact hmoved
    · have hpassword := resetAndEncode_movedTo O .password passwordTokenPos.tail
        (ctx.setWarning .hasCredentials).pos
        (resetAndEncode O .username beg fin (ctx.setWarning .hasCredentials))
      rw [hmoved.pos] at hpassword
      exact hmoved.trans hpassword

/-! ## `parse_authority_pieces` -/

section Pieces

variable (isSpecial : Bool) (authorityBegin : List Char)

/-- Where the loop stops searching. -/
def authorityStop (e : ComponentEncoder σ) : Run (Bool × ComponentEncoder σ) :=
  if isSpecial then decodeOrTolower O .host (authorityInteresting O isSpecial) e
  else pure (encodeOrValidate O .host c0ControlEncodeSet (authorityInteresting O isSpecial) e)

/-- What a round does where the search has ended. -/
def authorityAt (s : AuthorityState σ) (r : Bool × ComponentEncoder σ) :
    Run (AuthorityFlow σ) :=
  let s := s.setCoder r.2
  if r.1 then
    if o.emptyHostIsError && !isSpecial &&
        s.coder.ctx.pos.length == authorityBegin.length then
      pure (.done (.returned (s.coder.ctx.setError .hostMissing)))
    else pure (.done (.broke (s.setCoder (s.coder.setValid .validPath)) false))
  else do
    let c ← deref s.coder.ctx.pos
    authoritySwitch o O isSpecial authorityBegin s c

theorem authorityStep_eq (s : AuthorityState σ) :
    authorityStep o O isSpecial authorityBegin s =
      authorityStop O isSpecial s.coder >>= authorityAt o O isSpecial authorityBegin s := by
  cases isSpecial <;> rfl

/-- The round does not read past the end, and no `@` stops it where it may not. -/
structure AuthorityRound (s : AuthorityState σ) : Prop where
  tolower : isSpecial = true →
    TolowerRounds O (authorityInteresting O isSpecial) s.coder.ctx.pos
  escape : isSpecial = false → EscapeInside o.ignoreTabsOrNewlines
    ((authorityInteresting O isSpecial).findFirstIn s.coder.ctx.pos)
  atsign : o.parseCredentails = false →
    ∀ r, authorityStop O isSpecial s.coder = .ok r → r.2.ctx.pos.head? ≠ some '@'

/-- What the rounds keep, from the context `start` on. A broken port has left an error. -/
structure AuthorityInv (start : Ctx σ) (s : AuthorityState σ) : Prop where
  leaves : Leaves 6 start s.coder.ctx
  invalid : s.mustContainCredentials = true → s.coder.ctx.status.value.rank < 6

/-- What is left of the context: the status is lowered, unless a reverse solidus ends the
host of a URI that is not special. -/
structure PiecesLeft (start ctx : Ctx σ) : Prop where
  leaves : Leaves 6 start ctx
  rank : ctx.status.value.rank < 6 ∨ isSpecial = false ∧ ctx.pos.head? = some '\\'

/-- How the loop is left. -/
inductive AuthorityLeft (start : Ctx σ) : AuthorityExit σ → Prop where
  | returned {ctx : Ctx σ} (h : PiecesLeft isSpecial start ctx) :
      AuthorityLeft start (.returned ctx)
  | broke {s : AuthorityState σ} {skipLastChar : Bool}
      (h : PiecesLeft isSpecial start s.coder.ctx)
      (hskip : skipLastChar = true → Lowers 6 start s.coder.ctx ∧ s.coder.ctx.pos ≠ []) :
      AuthorityLeft start (.broke s skipLastChar)

/-- What a round leads to: the position moves on, or the loop is left. -/
abbrev AuthorityRoundFlow (start : Ctx σ) (s : AuthorityState σ) : AuthorityFlow σ → Prop :=
  FlowSat (fun s' => AuthorityInv start s' ∧
    s'.coder.ctx.pos.length < s.coder.ctx.pos.length) (AuthorityLeft isSpecial start)

section Rounds

variable {o O isSpecial authorityBegin} {start : Ctx σ} {s : AuthorityState σ}

theorem PiecesLeft.lowered (h : Lowers 6 start ctx) :
    PiecesLeft isSpecial start ctx :=
  ⟨⟨h.beg, h.pos, .inr h.rank⟩, .inl h.rank⟩

theorem AuthorityLeft.lowered (h : Lowers 6 start ctx) :
    AuthorityLeft isSpecial start (.returned ctx) := .returned (.lowered h)

theorem AuthorityInv.escape (h : AuthorityInv start s) {rest : List Char}
    (hpos : s.coder.ctx.pos = c :: rest)
    (hescape : ∃ pos, pos <:+ rest ∧ MovedTo pos s.coder.ctx e.ctx) :
    AuthorityInv start (s.setCoder e) ∧ e.ctx.pos.length < s.coder.ctx.pos.length := by
  obtain ⟨pos, hsuffix, hmoved⟩ := hescape
  refine ⟨⟨h.leaves.moved hmoved ?_, fun hmust => ?_⟩, ?_⟩
  · rw [hpos]
    exact hsuffix.trans (List.suffix_cons ..)
  · show e.ctx.status.value.rank < 6
    rw [hmoved.value]
    exact h.invalid hmust
  · rw [hmoved.pos, hpos]
    exact Nat.lt_succ_of_le hsuffix.length_le

theorem AuthorityInv.passed (h : AuthorityInv start s) {rest : List Char}
    (hpos : s.coder.ctx.pos = c :: rest) (hmoved : MovedTo rest s.coder.ctx e.ctx) :
    AuthorityInv start (s.setCoder e) ∧ e.ctx.pos.length < s.coder.ctx.pos.length :=
  h.escape hpos ⟨rest, List.suffix_refl _, hmoved⟩

theorem AuthorityInv.error (h : AuthorityInv start s) (hvalue : value.rank < 6) :
    AuthorityLeft isSpecial start (.returned (s.coder.ctx.setError value)) :=
  .lowered ⟨h.leaves.beg, h.leaves.pos, hvalue⟩

theorem AuthorityInv.mustContain (h : AuthorityInv start s)
    (hmust : s.mustContainCredentials = true) :
    AuthorityLeft isSpecial start (.returned s.coder.ctx) :=
  .lowered ⟨h.leaves.beg, h.leaves.pos, h.invalid hmust⟩

theorem authorityBreak_safe {s' : AuthorityState σ} {skipLastChar : Bool}
    (h : PiecesLeft isSpecial start s'.coder.ctx)
    (hskip : skipLastChar = true → Lowers 6 start s'.coder.ctx ∧ s'.coder.ctx.pos ≠ []) :
    AuthorityRoundFlow isSpecial start s (authorityBreak o isSpecial s' skipLastChar) := by
  rw [authorityBreak]
  split
  · exact AuthorityLeft.returned h
  · split
    · split
      · exact AuthorityLeft.lowered ⟨h.leaves.beg, h.leaves.pos,
          show UriStatus.rank .hostMissing < 6 by decide⟩
      · split
        · rename_i hnil
          refine AuthorityLeft.broke (.lowered ⟨h.leaves.beg, h.leaves.pos,
            show UriStatus.rank .validPath < 6 by decide⟩) fun hlast => ?_
          exact absurd hnil (hskip hlast).2
        · exact AuthorityLeft.broke h hskip
    · exact AuthorityLeft.broke h hskip

theorem AuthorityInv.breaks (h : AuthorityInv start s)
    (hvalue : value.rank < 6) {skipLastChar : Bool} (hne : s.coder.ctx.pos ≠ []) :
    AuthorityRoundFlow isSpecial start s
      (authorityBreak o isSpecial (s.setCoder (s.coder.setValid value)) skipLastChar) := by
  have hlowers : Lowers 6 start (s.setCoder (s.coder.setValid value)).coder.ctx :=
    ⟨h.leaves.beg, h.leaves.pos, hvalue⟩
  exact authorityBreak_safe (.lowered hlowers) fun _ => ⟨hlowers, hne⟩

section Cons

variable (h : AuthorityInv start s) {c : Char} {rest : List Char}
  (hpos : s.coder.ctx.pos = c :: rest)
include h hpos

theorem authorityColon_safe :
    Safe (AuthorityRoundFlow isSpecial start s) (authorityColon o O isSpecial s) := by
  have hne : s.coder.ctx.pos ≠ [] := by
    rw [hpos]
    exact List.cons_ne_nil _ _
  have hrest : rest <:+ start.pos := by
    refine (List.suffix_cons c rest).trans ?_
    rw [← hpos]
    exact h.leaves.pos
  rw [authorityColon]
  simp only
  split
  · refine (ignoreCharacter_cons (e := s.coder.setWarning _) hpos).bind fun e he => ?_
    exact h.passed hpos he.of_setWarning
  · split
    · exact h.breaks (show UriStatus.rank .validPort < 6 by decide) hne
    · rw [show advance s.coder.ctx.pos 1 = .ok rest by rw [hpos, advance_one_cons], ok_bind]
      refine (parsePort_safe standardUriParsingOptions O (.inl rfl)).bind fun ctx hctx => ?_
      have hlowers : Lowers 6 start ctx :=
        ⟨hctx.beg.trans h.leaves.beg, hctx.pos.trans hrest, Nat.lt_succ_of_lt hctx.rank⟩
      split
      · refine ⟨⟨⟨hlowers.beg, hrest, .inr hlowers.rank⟩, fun _ => hlowers.rank⟩, ?_⟩
        show rest.length < s.coder.ctx.pos.length
        rw [hpos]
        exact Nat.lt_succ_self _
      · have hend := endSegmentOf_movedTo O .host { s.coder with ctx := ctx } s.coder.beg
          s.coder.ctx.pos
        have hset := setValueOf_movedTo O .host (endSegmentOf O .host s.coder.beg
          s.coder.ctx.pos { s.coder with ctx := ctx }) s.hostBegin s.coder.ctx.pos
        rw [hend.pos] at hset
        have hleft := hlowers.moved (hend.trans hset) (List.suffix_refl _)
        generalize setValueOf O .host s.hostBegin s.coder.ctx.pos
          (endSegmentOf O .host s.coder.beg s.coder.ctx.pos { s.coder with ctx := ctx }) = e
          at hleft
        split
        · split
          · exact AuthorityLeft.lowered ⟨hleft.beg, hleft.pos,
              show UriStatus.rank .hostMissing < 6 by decide⟩
          · split
            · exact AuthorityLeft.lowered ⟨hleft.beg, hleft.pos,
                show UriStatus.rank .validPath < 6 by decide⟩
            · exact AuthorityLeft.lowered hleft
        · exact AuthorityLeft.lowered hleft

theorem authorityAtsign_safe (hat : o.parseCredentails = true) :
    Safe (AuthorityRoundFlow isSpecial start s) (authorityAtsign o O authorityBegin s) := by
  have hcred := parseCredentials_movedTo O authorityBegin s.colonPos s.coder.ctx
  rw [authorityAtsign, if_pos hat]
  generalize parseCredentials O authorityBegin s.colonPos s.coder.ctx = ctx at hcred
  simp only
  rw [show advance ctx.pos 1 = .ok rest by rw [hcred.pos, hpos, advance_one_cons], ok_bind]
  have hmoved : MovedTo rest s.coder.ctx { ctx with pos := rest, out := O.clear .host ctx.out } :=
    (hcred.setPos rest).setOut _
  have hstart := startSegment_movedTo O .host
    (resetBegin { s.coder with ctx := { ctx with pos := rest, out := O.clear .host ctx.out } })
  have hpassed := h.passed hpos (hmoved.trans hstart)
  exact ⟨⟨hpassed.1.leaves, fun h => absurd h Bool.false_ne_true⟩, hpassed.2⟩

theorem authorityEndsAt_safe (parse : Bool) (hvalue : value.rank < 6) :
    Safe (AuthorityRoundFlow isSpecial start s) (authorityEndsAt o O isSpecial parse value s) := by
  rw [authorityEndsAt]
  split
  · rename_i hmust
    exact h.mustContain hmust
  · split
    · refine h.breaks hvalue ?_
      rw [hpos]
      exact List.cons_ne_nil _ _
    · refine (skipSeparator_cons (e := s.coder.setWarning _) hpos).bind fun e he => ?_
      exact h.passed hpos he.of_setWarning

theorem authorityNull_safe :
    AuthorityRoundFlow isSpecial start s (authorityNull o isSpecial s) := by
  rw [authorityNull]
  split
  · rename_i hmust
    exact h.mustContain hmust
  · split
    · split
      · exact h.error (show UriStatus.rank .hostMissing < 6 by decide)
      · refine h.breaks (show UriStatus.rank .validPath < 6 by decide) ?_
        rw [hpos]
        exact List.cons_ne_nil _ _
    · refine h.error ?_
      rw [invalidCodePoint]
      split <;> decide

theorem authoritySlash_safe :
    AuthorityRoundFlow isSpecial start s (authoritySlash o isSpecial s) := by
  rw [authoritySlash]
  split
  · rename_i hmust
    exact h.mustContain hmust
  · refine h.breaks (show UriStatus.rank .validPath < 6 by decide) ?_
    rw [hpos]
    exact List.cons_ne_nil _ _

theorem authoritySwitch_safe
    (hescape : isSpecial = false → EscapeInside o.ignoreTabsOrNewlines (c :: rest))
    (hat : c = '@' → o.parseCredentails = true) :
    Safe (AuthorityRoundFlow isSpecial start s)
      (authoritySwitch o O isSpecial authorityBegin s c) := by
  have hinvalid : (invalidCodePoint isSpecial).rank < 6 := by
    rw [invalidCodePoint]
    split <;> decide
  have htab : Safe (AuthorityRoundFlow isSpecial start s)
      (if o.ignoreTabsOrNewlines = true then do
        let e ← (s.coder.setWarning .invalidCharacter).ignoreCharacter
        pure (.next (s.setCoder e))
      else pure (.done (.returned (s.coder.ctx.setError (invalidCodePoint isSpecial))))) := by
    split
    · refine (ignoreCharacter_cons (e := s.coder.setWarning _) hpos).bind fun e he => ?_
      exact h.passed hpos he.of_setWarning
    · exact h.error hinvalid
  rw [authoritySwitch.eq_def]
  simp only
  split
  · exact (parseHostIpv6_safe hpos).bind fun ctx hctx => .lowered (h.leaves.lowers hctx)
  · exact authorityColon_safe h hpos
  · split
    · exact authoritySlash_safe h hpos
    · rename_i hspecial
      refine authorityBreak_safe ⟨h.leaves, .inr ⟨Bool.eq_false_iff.mpr hspecial, ?_⟩⟩
        fun hskip => absurd hskip Bool.false_ne_true
      rw [hpos]
      rfl
  · exact authoritySlash_safe h hpos
  · refine (nextSegment_cons hpos).bind fun e he => ?_
    exact h.passed hpos he
  · exact authorityEndsAt_safe h hpos _ (show UriStatus.rank .validQueries < 6 by decide)
  · exact authorityEndsAt_safe h hpos _ (show UriStatus.rank .validFragment < 6 by decide)
  · split
    · exact h.error (show UriStatus.rank .invalidDomainCodePoint < 6 by decide)
    · rename_i hspecial
      refine (validatePercentEncode_safe hpos (hescape (Bool.eq_false_iff.mpr hspecial))).bind
        fun r hr => ?_
      obtain ⟨pos, hsuffix, hmoved⟩ := hr
      split
      · exact h.escape hpos ⟨pos, hsuffix, hmoved⟩
      · exact h.escape hpos ⟨pos, hsuffix, hmoved.setWarning _⟩
  · exact htab
  · exact htab
  · exact htab
  · exact authorityAtsign_safe h hpos (hat rfl)
  · exact authorityNull_safe h hpos
  · exact h.error hinvalid

end Cons

theorem authorityStop_safe (hround : AuthorityRound o O isSpecial s) :
    Safe (fun r => ∃ pos, pos <:+ s.coder.ctx.pos ∧ MovedTo pos s.coder.ctx r.2.ctx ∧
        r.1 = pos.isEmpty ∧
        (isSpecial = false → EscapeInside o.ignoreTabsOrNewlines pos))
      (authorityStop O isSpecial s.coder) := by
  rw [authorityStop]
  cases isSpecial with
  | true =>
      refine (decodeOrTolower_safe (hround.tolower rfl)).mono fun r hr => ?_
      obtain ⟨pos, hsuffix, hmoved, hempty⟩ := hr
      exact ⟨pos, hsuffix, hmoved, hempty, fun h => absurd h Bool.noConfusion⟩
  | false =>
      have hstop := encodeOrValidate_movedTo O .host c0ControlEncodeSet
        (authorityInteresting O false) s.coder
      exact ⟨_, findFirstIn_suffix _ _, hstop.1, hstop.2, hround.escape⟩

theorem authorityStep_safe (h : AuthorityInv start s) (hround : AuthorityRound o O isSpecial s) :
    Safe (AuthorityRoundFlow isSpecial start s) (authorityStep o O isSpecial authorityBegin s) := by
  have hstop := (authorityStop_safe hround).and_ok
  rw [authorityStep_eq]
  refine hstop.bind fun r hr => ?_
  obtain ⟨⟨pos, hsuffix, hmoved, hempty, hescape⟩, heq⟩ := hr
  have hinv : AuthorityInv start (s.setCoder r.2) := by
    refine ⟨h.leaves.moved hmoved hsuffix, fun hmust => ?_⟩
    show r.2.ctx.status.value.rank < 6
    rw [hmoved.value]
    exact h.invalid hmust
  rw [authorityAt]
  cases pos with
  | nil =>
      rw [hempty, List.isEmpty_nil, if_pos rfl]
      split
      · exact hinv.error (show UriStatus.rank .hostMissing < 6 by decide)
      · exact AuthorityLeft.broke (.lowered ⟨hinv.leaves.beg, hinv.leaves.pos,
          show UriStatus.rank .validPath < 6 by decide⟩) fun h => absurd h Bool.false_ne_true
  | cons c rest =>
      have hpos : (s.setCoder r.2).coder.ctx.pos = c :: rest := hmoved.pos
      rw [hempty, List.isEmpty_cons, if_neg Bool.false_ne_true, hpos, deref_cons, ok_bind]
      refine (authoritySwitch_safe hinv hpos hescape fun hc => ?_).mono fun flow hflow => ?_
      · subst hc
        by_contra hat
        refine hround.atsign (Bool.eq_false_iff.mpr hat) r heq ?_
        rw [hmoved.pos]
        rfl
      · cases flow with
        | next s' =>
            refine ⟨hflow.1, Nat.lt_of_lt_of_le hflow.2 ?_⟩
            rw [hpos]
            exact hsuffix.length_le
        | done exit => exact hflow

end Rounds

/-- No fifth octet is stored where a host ends in a number. -/
def HostEndRounds (s : AuthorityState σ) : Prop :=
  ∀ ctx, isPossibleEndsWithIpv4 o s.hostBegin s.coder.ctx = .ok (true, ctx) →
    HostIpv4Rounds o (slice s.hostBegin ctx.pos) ctx

/-- The variables before the loop of `parse_authority_pieces`. -/
def startPieces (ctx : Ctx σ) : AuthorityState σ :=
  ⟨startSegment O .host (ofCtx ctx), ctx.pos, [], false⟩

/-- No round of `parse_authority_pieces` passes the end, nor does what follows them. -/
structure PiecesRounds (ctx : Ctx σ) : Prop where
  rounds : ∀ s, Reaches (authorityStep o O isSpecial ctx.pos) (startPieces O ctx) s →
    AuthorityRound o O isSpecial s
  hostEnd : ∀ s skipLastChar, loop (authorityStep o O isSpecial ctx.pos) .diverges
    (ctx.pos.length + 1) (startPieces O ctx) = .ok (.broke s skipLastChar) → HostEndRounds o s

section HostEnd

variable {o O isSpecial} {start : Ctx σ} {s : AuthorityState σ} {skipLastChar : Bool}

theorem skipLast_safe (hleft : AuthorityLeft isSpecial start (.broke s skipLastChar))
    (hmoved : MovedTo s.coder.ctx.pos s.coder.ctx e.ctx) :
    Safe (PiecesLeft isSpecial start) (skipLast skipLastChar e) := by
  cases hleft with
  | broke h hskip =>
      rw [skipLast]
      split
      · rename_i hlast
        obtain ⟨hlowers, hne⟩ := hskip hlast
        have hlowers' := hlowers.moved hmoved (List.suffix_refl _)
        rw [← hmoved.pos] at hne
        refine (ignoreCharacter_safe (List.length_pos_of_ne_nil hne)).bind fun e' he' => ?_
        exact .lowered (hlowers'.moved he' (List.drop_suffix ..))
      · refine ⟨h.leaves.moved hmoved (List.suffix_refl _), ?_⟩
        rw [hmoved.value, hmoved.pos]
        exact h.rank

theorem authorityHostEnd_safe (hleft : AuthorityLeft isSpecial start (.broke s skipLastChar))
    (hcolon : PastColon s.coder.ctx) (hend : HostEndRounds o s) :
    Safe (PiecesLeft isSpecial start) (authorityHostEnd o O s skipLastChar) := by
  have hstore {e : ComponentEncoder σ} (he : MovedTo s.coder.ctx.pos s.coder.ctx e.ctx) :
      Safe (PiecesLeft isSpecial start)
        (skipLast skipLastChar (setValue O .host (endSegment O .host e))) := by
    have hset := setValue_endSegment_movedTo O .host e
    rw [he.pos] at hset
    exact skipLast_safe hleft (he.trans hset)
  rw [authorityHostEnd]
  refine (isPossibleEndsWithIpv4_safe o s.hostBegin hcolon).and_ok.bind fun r hr => ?_
  obtain ⟨hmoved, heq⟩ := hr
  obtain ⟨found, ctx⟩ := r
  simp only
  split
  · rename_i hfound
    subst hfound
    refine (parseHostIpv4_safe (hend ctx heq)).bind fun r hr => ?_
    cases hr with
    | none hlowers =>
        cases hleft with
        | broke h hskip =>
            have hleaves := h.leaves.moved hmoved (List.suffix_refl _)
            exact .lowered (hleaves.lowers ⟨hlowers.beg, hlowers.pos,
              Nat.lt_of_lt_of_le hlowers.rank (by decide)⟩)
    | @some ctx' h octets =>
        rw [hmoved.pos] at h
        have hmoved' := hmoved.trans h
        simp only
        split
        · have hclear : MovedTo s.coder.ctx.pos s.coder.ctx
              (ComponentEncoder.setOut { s.coder with ctx := ctx' } (O.clear .host ctx'.out)).ctx :=
            hmoved'.setOut _
          have hstart := startSegment_movedTo O .host
            (ComponentEncoder.setOut { s.coder with ctx := ctx' } (O.clear .host ctx'.out))
          rw [hclear.pos] at hstart
          have happ := appendTo_movedTo O .host (startSegment O .host
            (ComponentEncoder.setOut { s.coder with ctx := ctx' } (O.clear .host ctx'.out)))
            (ipv4Text octets)
          rw [(hclear.trans hstart).pos] at happ
          exact skipLast_safe hleft ((hclear.trans hstart).trans happ)
        · exact hstore (e := { s.coder with ctx := ctx' }) hmoved'
  · exact hstore (e := { s.coder with ctx := ctx }) hmoved

theorem parseAuthorityPieces_safe (hcolon : PastColon ctx)
    (hrounds : PiecesRounds o O isSpecial ctx) :
    Safe (PiecesLeft isSpecial ctx) (parseAuthorityPieces o O isSpecial ctx) := by
  have hmoved : MovedTo ctx.pos ctx (startPieces O ctx).coder.ctx :=
    startSegment_movedTo O .host (ofCtx ctx)
  have hstart : AuthorityInv ctx (startPieces O ctx) :=
    ⟨Ahead.leaves ⟨_, List.suffix_refl _, hmoved⟩, fun h => absurd h Bool.false_ne_true⟩
  have hlength : (startPieces O ctx).coder.ctx.pos.length < ctx.pos.length + 1 := by
    rw [hmoved.pos]
    exact Nat.lt_succ_self _
  have hloop : Safe (AuthorityLeft isSpecial ctx) (loop (authorityStep o O isSpecial ctx.pos)
      .diverges (ctx.pos.length + 1) (startPieces O ctx)) :=
    loop_sat (AuthorityInv ctx) _ (fun s => s.coder.ctx.pos.length) hstart
      (fun s hreach hs => authorityStep_safe hs (hrounds.rounds s hreach)) hlength
  rw [parseAuthorityPieces]
  refine hloop.and_ok.bind fun exit hexit => ?_
  obtain ⟨hleft, heq⟩ := hexit
  cases exit with
  | returned ctx' =>
      cases hleft with
      | returned h => exact h
  | broke s skipLastChar =>
      have hcolon' : PastColon s.coder.ctx := by
        cases hleft with
        | broke h _ => exact hcolon.ahead h.leaves.beg h.leaves.pos
      exact authorityHostEnd_safe hleft hcolon' (hrounds.hostEnd s skipLastChar heq)

end HostEnd

end Pieces

/-! ## The host of a file -/

theorem backToSlash_safe {before pos : List Char} (hne : pos ≠ []) (hbefore : before ≠ []) :
    Safe (fun pos' => pos' <:+ before.reverse ++ pos) (backToSlash before pos) := by
  induction before generalizing pos with
  | nil => exact absurd rfl hbefore
  | cons c before ih =>
      obtain ⟨d, rest, rfl⟩ := List.exists_cons_of_ne_nil hne
      rw [backToSlash.eq_def]
      simp only [deref_cons, ok_bind]
      split
      · exact List.suffix_append _ _
      · cases before with
        | nil => exact List.suffix_refl _
        | cons c' before =>
            refine (ih (List.cons_ne_nil c (d :: rest)) (List.cons_ne_nil _ _)).mono
              fun pos' hpos' => ?_
            rw [List.reverse_cons, List.append_assoc]
            exact hpos'

theorem slice_append_suffix {beg pos : List Char} (h : pos <:+ beg) : slice beg pos ++ pos = beg := by
  obtain ⟨run, rfl⟩ := h
  rw [slice_append]

/-- Where there is no drive letter, no round of the host passes the end. -/
def FileHostRounds (ctx : Ctx σ) : Prop :=
  (o.handleWindowsDriveLetters && startsWithWindowsDriverLetter o ctx.pos) = false →
    PiecesRounds (fileHostOptions o) O true ctx

section Authority

variable {o O} {ctx : Ctx σ} (hbeg : ctx.pos <:+ ctx.beg)
include hbeg

theorem parseFileHost_safe (hcolon : PastColon ctx) (hrounds : FileHostRounds o O ctx) :
    Safe (Proceeds 6 ctx) (parseFileHost o O ctx) := by
  rw [parseFileHost]
  split
  · rename_i hletter
    have hne : ctx.pos ≠ [] := by
      intro hnil
      rw [hnil] at hletter
      exact absurd hletter (by simp [startsWithWindowsDriverLetter])
    have hbefore : (slice ctx.beg ctx.pos).reverse ≠ [] :=
      List.ne_nil_of_mem (List.mem_reverse.mpr hcolon)
    refine (backToSlash_safe hne hbefore).bind fun pos hpos => ?_
    rw [List.reverse_reverse, slice_append_suffix hbeg] at hpos
    exact .lower rfl hpos (show UriStatus.rank .validPath < 6 by decide)
  · rename_i hletter
    refine (parseAuthorityPieces_safe hcolon (hrounds (Bool.eq_false_iff.mpr hletter))).bind
      fun ctx' hctx' => ?_
    have hrank : ctx'.status.value.rank < 6 :=
      hctx'.rank.resolve_right fun h => absurd h.1 Bool.noConfusion
    have hpos := hctx'.leaves.pos.trans hbeg
    simp only
    split
    · exact .lower hctx'.leaves.beg hpos hrank
    · exact .lower hctx'.leaves.beg hpos hrank

/-! ## `parse_authority` -/

/-- The loop before the host ends the parsing, or stays in front of a character other than a
reverse solidus. -/
structure StartLeft (start : Ctx σ) (r : Bool × Ctx σ) : Prop where
  beg : r.2.beg = start.beg
  pos : r.2.pos <:+ start.pos
  value : r.2.status.value.rank = 0 ∨
    r.1 = true ∧ r.2.status.value = start.status.value ∧ r.2.pos.head? ≠ some '\\'

omit hbeg in
theorem authorityStart_safe (ctx : Ctx σ) (hskips : SkipsInside o pos) :
    Safe (StartLeft { ctx with pos := pos }) (authorityStart o pos ctx) := by
  induction pos generalizing ctx with
  | nil =>
      obtain ⟨c, hc, -⟩ := hskips
      cases hc
  | cons c pos ih =>
      have hmissing : StartLeft { ctx with pos := c :: pos }
          (false, if o.emptyHostIsError = true then
            { ctx with pos := c :: pos }.setError .hostMissing
          else { ctx with pos := c :: pos }.setValid .valid) := by
        split
        · exact ⟨rfl, List.suffix_refl _, .inl rfl⟩
        · exact ⟨rfl, List.suffix_refl _, .inl rfl⟩
      have hgoes (hc : c ≠ '\\') :
          StartLeft { ctx with pos := c :: pos } (true, { ctx with pos := c :: pos }) :=
        ⟨rfl, List.suffix_refl _, .inr ⟨rfl, rfl, fun h => hc (Option.some.inj h)⟩⟩
      rw [authorityStart]
      split
      · rename_i hcolon
        split
        · exact hgoes (by rw [hcolon]; decide)
        · exact hmissing
      · split
        · rename_i hnull
          split
          · exact hgoes (by rw [hnull]; decide)
          · exact hmissing
        · split
          · rename_i hquery
            exact hgoes (by rw [hquery.1]; decide)
          · split
            · split
              · split
                · exact ⟨rfl, List.suffix_refl _, .inl rfl⟩
                · exact ⟨rfl, List.suffix_refl _, .inl rfl⟩
              · exact ⟨rfl, List.suffix_refl _, .inl rfl⟩
            · rename_i hstop
              split
              · rename_i htab
                refine (ih (ctx.setWarning .invalidCharacter) (hskips.tail htab)).mono
                  fun r hr => ?_
                exact ⟨hr.beg, hr.pos.trans (List.suffix_cons ..), hr.value⟩
              · exact hgoes fun hc => hstop (.inr (.inl hc))

end Authority

/-- No round of the authority passes the end. -/
def AuthorityRounds (ctx : Ctx σ) : Prop :=
  ctx.pos ≠ [] →
    if o.allowFileHosts && isFileScheme ctx.scheme then
      FileHostRounds standardUriParsingOptions O ctx
    else SkipsInside o ctx.pos ∧ ∀ ctx', authorityStart o ctx.pos ctx = .ok (true, ctx') →
      PiecesRounds o O (isSpecialScheme ctx'.scheme) ctx'

section Authority

variable {o O} {ctx : Ctx σ}

theorem StartLeft.proceeds (hbeg : ctx.pos <:+ ctx.beg) {ctx' ctx'' : Ctx σ}
    (h : StartLeft ctx (true, ctx')) {isSpecial : Bool} (h' : PiecesLeft isSpecial ctx' ctx'') :
    Proceeds 6 ctx ctx'' := by
  obtain ⟨⟨hbeg', hpos', hvalue'⟩, hrank'⟩ := h'
  have hpos : ctx''.pos <:+ ctx.pos := hpos'.trans h.pos
  refine ⟨hbeg'.trans h.beg, hpos.trans hbeg, ?_⟩
  rcases hrank' with hrank | ⟨-, hhead⟩
  · exact .inl hrank
  · rcases hvalue' with hvalue' | hrank
    · rcases h.value with hrank | ⟨-, hvalue, hne⟩
      · rw [hvalue', hrank]
        exact .inl (by decide)
      · refine .inr ⟨hvalue'.trans hvalue, hpos, ?_⟩
        refine Nat.lt_of_lt_of_le (Nat.lt_of_le_of_ne hpos'.length_le fun hlength => ?_)
          h.pos.length_le
        rw [hpos'.eq_of_length hlength] at hhead
        exact hne hhead
    · exact .inl hrank

theorem parseAuthority_safe (hbeg : ctx.pos <:+ ctx.beg) (hcolon : PastColon ctx)
    (hrounds : AuthorityRounds o O ctx) : Safe (Proceeds 6 ctx) (parseAuthority o O ctx) := by
  rw [parseAuthority]
  split
  · split
    · exact .lower rfl hbeg (show UriStatus.rank .hostMissing < 6 by decide)
    · exact .lower rfl hbeg (show UriStatus.rank .valid < 6 by decide)
  · rename_i hne
    have hrounds' := hrounds hne
    split
    · rename_i hfile
      rw [if_pos hfile] at hrounds'
      exact parseFileHost_safe hbeg hcolon hrounds'
    · rename_i hfile
      rw [if_neg hfile] at hrounds'
      refine (authorityStart_safe ctx hrounds'.1).and_ok.bind fun r hr => ?_
      obtain ⟨hstart, heq⟩ := hr
      obtain ⟨goesOn, ctx'⟩ := r
      cases goesOn with
      | false =>
          refine .lower hstart.beg (hstart.pos.trans hbeg) ?_
          rw [hstart.value.resolve_right fun h => absurd h.1 Bool.noConfusion]
          decide
      | true =>
          have hpieces := parseAuthorityPieces_safe (hcolon.ahead hstart.beg hstart.pos)
            (hrounds'.2 ctx' heq)
          exact hpieces.mono fun ctx'' h => hstart.proceeds hbeg h

/-! ## `parse_authority_end` -/

theorem authorityEndSpecial_safe (ctx : Ctx σ) (hskips : SkipsInside o pos) :
    Safe (Lowers 4 { ctx with pos := pos }) (authorityEndSpecial o pos ctx) := by
  induction pos generalizing ctx with
  | nil =>
      obtain ⟨c, hc, -⟩ := hskips
      cases hc
  | cons c pos ih =>
      rw [authorityEndSpecial]
      split
      · rename_i htab
        refine (ih (ctx.setWarning .invalidCharacter) (hskips.tail htab)).mono fun ctx' h => ?_
        exact ⟨h.beg, h.pos.trans (List.suffix_cons ..), h.rank⟩
      · simp only
        split
        · exact ⟨rfl, List.suffix_refl _, show UriStatus.rank .validPath < 4 by decide⟩
        · exact ⟨rfl, List.suffix_refl _, show UriStatus.rank .validPath < 4 by decide⟩

/-- The first character that is not passed over. -/
def firstRead (o : Options) (pos : List Char) : Option Char :=
  (pos.dropWhile fun c => isTabOrNewline c && o.ignoreTabsOrNewlines).head?

theorem firstRead_cons (h : ¬(isTabOrNewline c = true ∧ o.ignoreTabsOrNewlines = true)) :
    firstRead o (c :: pos) = some c := by
  rw [← Bool.and_eq_true] at h
  rw [firstRead, List.dropWhile_cons, if_neg h, List.head?_cons]

theorem firstRead_cons_ignored (h : isTabOrNewline c = true ∧ o.ignoreTabsOrNewlines = true) :
    firstRead o (c :: pos) = firstRead o pos := by
  rw [← Bool.and_eq_true] at h
  rw [firstRead, List.dropWhile_cons, if_pos h, firstRead]

/-- What begins behind an authority is parsed. -/
structure EndSwitchedOn (o : Options) (pos : List Char) : Prop where
  queries : firstRead o pos = some '?' → o.parseQueries = true
  fragment : firstRead o pos = some '#' → o.parseFragment = true

theorem authorityEndOther_safe (hon : EndSwitchedOn o pos) (ctx : Ctx σ)
    (hskips : SkipsInside o pos) :
    Safe (Lowers 4 { ctx with pos := pos }) (authorityEndOther o O pos ctx) := by
  induction pos generalizing ctx with
  | nil =>
      obtain ⟨c, hc, -⟩ := hskips
      cases hc
  | cons c pos ih =>
      rw [authorityEndOther]
      simp only
      split
      · rename_i hquery
        subst hquery
        rw [if_pos (hon.queries (firstRead_cons fun h => absurd h.1 (by decide)))]
        exact ⟨rfl, List.suffix_cons .., show UriStatus.rank .validQueries < 4 by decide⟩
      · split
        · rename_i hhash
          subst hhash
          rw [if_pos (hon.fragment (firstRead_cons fun h => absurd h.1 (by decide)))]
          exact ⟨rfl, List.suffix_cons .., show UriStatus.rank .validFragment < 4 by decide⟩
        · split
          · rename_i htab
            have hfirst : firstRead o (c :: pos) = firstRead o pos := firstRead_cons_ignored htab
            have hrest : EndSwitchedOn o pos :=
              ⟨fun h => hon.queries (hfirst.trans h), fun h => hon.fragment (hfirst.trans h)⟩
            refine (ih hrest (ctx.setWarning .invalidCharacter) (hskips.tail htab)).mono
              fun ctx' h => ?_
            exact ⟨h.beg, h.pos.trans (List.suffix_cons ..), h.rank⟩
          · exact ⟨rfl, List.suffix_refl _, show UriStatus.rank .validPath < 4 by decide⟩

theorem parseAuthorityEnd_safe
    (hon : ctx.pos ≠ [] → isSpecialScheme ctx.scheme = false → EndSwitchedOn o ctx.pos)
    (hskips : ctx.pos ≠ [] → SkipsInside o ctx.pos) :
    Safe (Lowers 4 ctx) (parseAuthorityEnd o O ctx) := by
  rw [parseAuthorityEnd]
  split
  · exact ⟨rfl, List.suffix_refl _, show UriStatus.rank .valid < 4 by decide⟩
  · rename_i hne
    split
    · exact authorityEndSpecial_safe ctx (hskips hne)
    · rename_i hspecial
      exact authorityEndOther_safe (hon hne (Bool.eq_false_iff.mpr hspecial)) ctx (hskips hne)

end Authority

end Webpp.Uri
