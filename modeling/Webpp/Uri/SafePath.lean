import Mathlib.Data.List.GetD
import Webpp.Uri.Path
import Webpp.Uri.Safe

/-!
# Safety of paths

The loops over opaque paths and over the paths of special URIs, the treatment of dot
segments, which may throw, and the one of drive letters, which moves back and forth.
-/

namespace Webpp.Uri

open ComponentEncoder Loop

variable {σ : Type} (o : Options) (O : Output σ)

/-- What a round leads to from a position: a later position, or the loop is left. -/
abbrev EncoderFlow (start : Ctx σ) (Done : ComponentEncoder σ → Prop)
    (e : ComponentEncoder σ) : Flow (ComponentEncoder σ) (ComponentEncoder σ) → Prop :=
  FlowSat (fun e' => Ahead start e'.ctx ∧ e'.ctx.pos.length < e.ctx.pos.length) Done

/-! ## Opaque paths -/

/-- The round does not pass the end: an escape is read to its end, and a character follows
what is read of one that is broken. -/
def OpaquePathRound (e : ComponentEncoder σ) : Prop :=
  let pos := opaquePathInteresting.findFirstIn e.ctx.pos
  EscapeInside o.ignoreTabsOrNewlines pos ∧
    ∀ r, pos.head? = some '%' → percentEscape o.ignoreTabsOrNewlines pos = .ok r →
      r.2.2 = true ∨ r.2.1 ≠ []

section Opaque

variable {o O} {start : Ctx σ} {e : ComponentEncoder σ} {c : Char} {rest : List Char}

/-- The `default` of the switch. -/
theorem opaqueSkip_safe (h : Ahead start e.ctx) (hpos : e.ctx.pos ≠ []) :
    Safe (EncoderFlow start (fun e' => Proceeds 3 start e'.ctx) e)
      (do
        let e ← e.ignoreCharacter
        pure (.next (e.setWarning .invalidCharacter))) := by
  refine (ignoreCharacter_safe (List.length_pos_of_ne_nil hpos)).bind fun e' he' => ?_
  rw [List.drop_one] at he'
  refine ⟨h.moved (List.tail_suffix _) (he'.setWarning _), ?_⟩
  exact he'.pos ▸ tail_length_lt hpos

theorem opaqueLeave_safe {e' : ComponentEncoder σ} (h : Leaves 3 start e.ctx)
    (hbeg : start.pos <:+ start.beg) (hpos : e.ctx.pos = c :: rest) {value : UriStatus}
    (hvalue : value.rank < 3) :
    Safe (EncoderFlow start (fun e' => Proceeds 3 start e'.ctx) e')
      (do
        let e ← (setValue O .path (endSegment O .path (e.setValid value))).ignoreCharacter
        pure (.done e)) := by
  have hmoved := setValue_endSegment_movedTo O .path (e.setValid value)
  refine (ignoreCharacter_cons (hmoved.pos.trans hpos)).bind fun e'' he'' => ?_
  refine h.proceeds_valid hbeg hvalue ?_ (hmoved.trans he'')
  rw [hpos]
  exact List.suffix_cons ..

theorem EncoderFlow.mono {Done : ComponentEncoder σ → Prop} {e' : ComponentEncoder σ}
    (hle : e'.ctx.pos.length ≤ e.ctx.pos.length)
    {x : Run (Flow (ComponentEncoder σ) (ComponentEncoder σ))}
    (h : Safe (EncoderFlow start Done e') x) : Safe (EncoderFlow start Done e) x := by
  refine Sat.mono h fun flow hflow => ?_
  cases flow with
  | next e'' => exact ⟨hflow.1, Nat.lt_of_lt_of_le hflow.2 hle⟩
  | done e'' => exact hflow

theorem opaquePathStep_safe (h : Ahead start e.ctx) (hbeg : start.pos <:+ start.beg)
    (hround : OpaquePathRound o e) :
    Safe (EncoderFlow start (fun e' => Proceeds 3 start e'.ctx) e) (opaquePathStep o O e) := by
  have hstop := encodeOrValidate_movedTo O .path c0ControlEncodeSet opaquePathInteresting e
  rw [opaquePathStep]
  generalize encodeOrValidate O .path c0ControlEncodeSet opaquePathInteresting e = r at hstop
  refine stop_safe h hstop (fun hahead => ?_) fun c rest hahead hcons hpos hsuffix => ?_
  · exact hahead.leaves.proceeds_valid hbeg (show UriStatus.rank .valid < 3 by decide)
      (List.suffix_refl _) (setValue_endSegment_movedTo O .path (r.2.setValid .valid))
  · refine EncoderFlow.mono hsuffix.length_le ?_
    generalize r.2 = e' at hahead hcons hsuffix
    have hne : e'.ctx.pos ≠ [] := by
      rw [hcons]
      exact List.cons_ne_nil _ _
    have hclear (comp : Components) :
        Leaves 3 start (e'.setOut (O.clear comp e'.ctx.out)).ctx :=
      hahead.leaves.moved ((MovedTo.refl _).setOut _) (List.suffix_refl _)
    simp only
    split
    · split
      · exact opaqueLeave_safe hahead.leaves hbeg hcons (show UriStatus.rank .valid < 3 by decide)
      · exact opaqueSkip_safe hahead hne
    · exact opaqueLeave_safe (hclear .queries) hbeg hcons
        (show UriStatus.rank .validQueries < 3 by decide)
    · exact opaqueLeave_safe (hclear .fragment) hbeg hcons
        (show UriStatus.rank .validFragment < 3 by decide)
    · rw [OpaquePathRound, hpos, ← hcons] at hround
      obtain ⟨hinside, hescape⟩ := hround
      rw [hcons] at hinside
      have hsafe : Safe (fun p => p.2.1 <:+ rest ∧ (p.2.2 = true ∨ p.2.1 ≠ []))
          (percentEscape o.ignoreTabsOrNewlines e'.ctx.pos) := by
        have hsuffix' := percentEscape_safe hinside
        rw [← hcons] at hsuffix'
        exact hsuffix'.and_ok.mono fun p hp => ⟨hp.1, hescape p (by rw [hcons]; rfl) hp.2⟩
      refine (validatePercentEncode_sat hsafe).bind fun r hr => ?_
      obtain ⟨p, ⟨hsuffix', hend⟩, hr1, hmoved⟩ := hr
      obtain ⟨hr, hlt⟩ := hahead.escape hcons ⟨_, hsuffix', hmoved⟩
      split
      · exact ⟨hr, hlt⟩
      · rename_i hbroken
        rw [hr1] at hbroken
        refine EncoderFlow.mono hlt.le (opaqueSkip_safe hr ?_)
        rw [hmoved.pos]
        exact hend.resolve_left hbroken
    · exact opaqueSkip_safe hahead hne

end Opaque

theorem parseOpaquePath_safe {ctx : Ctx σ} (hbeg : ctx.pos <:+ ctx.beg)
    (hrounds : ∀ e, Reaches (opaquePathStep o O) (startSegment O .path (ofCtx ctx)) e →
      OpaquePathRound o e) :
    Safe (Proceeds 3 ctx) (parseOpaquePath o O ctx) := by
  have hstart := startSegment_movedTo O .path (ofCtx ctx)
  rw [parseOpaquePath]
  have hahead : Ahead ctx (startSegment O .path (ofCtx ctx)).ctx := ⟨_, List.suffix_refl _, hstart⟩
  refine Sat.bind (P := fun e => Proceeds 3 ctx e.ctx) ?_ fun e he => sat_ok.mpr he
  refine loop_sat (fun e => Ahead ctx e.ctx) _ (fun e => e.ctx.pos.length) hahead
    (fun e hreach hahead => opaquePathStep_safe hahead hbeg (hrounds e hreach)) ?_
  rw [hstart.pos]
  exact Nat.lt_succ_self _

/-! ## Dot segments -/

section Dots

variable {o O} {e : ComponentEncoder σ}

theorem eraseLast_safe (length : ℕ) (out : List Char) :
    Safe (fun _ => True) (eraseLast length out) := by
  rw [eraseLast]
  split
  · trivial
  · exact sat_error.mpr rfl

variable (e) (hO : O.Lawful)
include hO

theorem popBackSegment_safe :
    Safe (fun e' => MovedTo e.ctx.pos e.ctx e'.ctx) (popBackSegment O e) := by
  have hset (out : σ) : MovedTo e.ctx.pos e.ctx (e.setOut out).ctx := (MovedTo.refl _).setOut out
  rw [popBackSegment]
  split
  · split
    · exact hset _
    · exact (hset _).trans (resetSegmentStart_movedTo O .path
        (e.setOut (O.editSegments .path popBackViews e.ctx.out)))
  · split
    · exact (hO .path (fun out => pure (popBackText out)) _ fun _ => trivial).bind
        fun out _ => hset out
    · exact .refl e.ctx

theorem clearSegment_safe :
    Safe (fun e' => MovedTo e.ctx.pos e.ctx e'.ctx) (clearSegment o O e) := by
  have hset (out : σ) : MovedTo e.ctx.pos e.ctx (e.setOut out).ctx := (MovedTo.refl _).setOut out
  have hreset (e' : ComponentEncoder σ) (he' : MovedTo e.ctx.pos e.ctx e'.ctx) :
      MovedTo e.ctx.pos e.ctx (resetSegmentStart O .path e').ctx := by
    have hmoved := resetSegmentStart_movedTo O .path e'
    rw [he'.pos] at hmoved
    exact he'.trans hmoved
  rw [clearSegment]
  split
  · exact (hO .path (fun _ => pure []) _ fun _ => trivial).bind fun out _ => hreset _ (hset out)
  · split
    · split
      · exact (popBackSegment_safe e hO).bind hreset
      · exact (hO .path _ _ (eraseLast_safe _)).bind fun out _ => hreset _ (hset out)
    · exact hreset e (.refl e.ctx)

theorem handleDotsInPaths_safe :
    Safe (fun r => MovedTo e.ctx.pos e.ctx r.2.ctx) (handleDotsInPaths o O e) := by
  rw [handleDotsInPaths]
  split
  · split
    · exact (clearSegment_safe e hO).bind fun e' he' => he'
    · refine (popBackSegment_safe e hO).bind fun e' he' => ?_
      refine (clearSegment_safe e' hO).bind fun e'' he'' => ?_
      rw [he'.pos] at he''
      exact he'.trans he''
    · exact .refl e.ctx
  · exact .refl e.ctx

end Dots

/-! ## Windows drive letters -/

/-- The path is not a drive letter alone: three characters are passed over for a letter and
its colon. -/
def DriveLetterRound (ctx : Ctx σ) : Prop :=
  o.handleWindowsDriveLetters = true → isFileScheme ctx.scheme = true →
    ∀ c c', ctx.pos = [c, c'] → hasWindowsDriverLetter c c' = false

theorem retreat_safe {beg start pos : List Char} (hstart : start <:+ beg)
    (hlt : pos.length < start.length) :
    Safe (fun before => before <:+ start ∧ before.length = pos.length + 1)
      (retreat beg pos) := by
  have hle := hstart.length_le
  have hlength : (beg.drop (beg.length - pos.length - 1)).length = pos.length + 1 := by
    rw [List.length_drop]
    omega
  rw [retreat, if_pos (Nat.lt_of_lt_of_le hlt hle)]
  refine ⟨List.suffix_of_suffix_length_le (List.drop_suffix ..) hstart ?_, hlength⟩
  rw [hlength]
  exact hlt

theorem driveLetters_spec (pos letters : List Char) (ctx : Ctx σ) :
    MovedTo ctx.pos ctx (driveLetters o pos letters ctx).2 ∧
      ∀ letters' pos', (driveLetters o pos letters ctx).1 = some (letters', pos') →
        letters'.length + pos'.length ≤ letters.length + pos.length := by
  induction pos generalizing letters ctx with
  | nil =>
      refine ⟨.refl ctx, ?_⟩
      rintro _ _ ⟨⟩
      exact Nat.le_refl _
  | cons c pos ih =>
      rw [driveLetters]
      split
      · refine ⟨.refl ctx, ?_⟩
        rintro _ _ ⟨⟩
        exact Nat.le_refl _
      · split
        · split
          · obtain ⟨hmoved, hlength⟩ := ih letters (ctx.setWarning .invalidCharacter)
            exact ⟨hmoved.of_setWarning, fun letters' pos' h =>
              (hlength letters' pos' h).trans (Nat.le_succ _)⟩
          · exact ⟨.refl ctx, fun _ _ h => absurd h (Option.some_ne_none _).symm⟩
        · have hwarned : MovedTo ctx.pos ctx
              (if c = '\\' then ctx.setWarning .reverseSolidusUsed else ctx) := by
            split
            · exact (MovedTo.refl ctx).setWarning _
            · exact .refl ctx
          generalize (if c = '\\' then ctx.setWarning .reverseSolidusUsed else ctx) = ctx'
            at hwarned
          simp only
          split
          · obtain ⟨hmoved, hlength⟩ := ih letters ctx'
            rw [hwarned.pos] at hmoved
            exact ⟨hwarned.trans hmoved, fun letters' pos' h =>
              (hlength letters' pos' h).trans (Nat.le_succ _)⟩
          · obtain ⟨hmoved, hlength⟩ := ih (letters ++ [c]) ctx'
            rw [hwarned.pos] at hmoved
            refine ⟨hwarned.trans hmoved, fun letters' pos' h =>
              (hlength letters' pos' h).trans ?_⟩
            simp only [List.length_append, List.length_cons, List.length_nil]
            omega

theorem driveLetters_third {pos letters pos' : List Char} {ctx : Ctx σ} {c : Char}
    (h : (driveLetters o pos [] ctx).1 = some (letters, pos')) (hc : letters.getD 2 '\x00' = c)
    (hne : c ≠ '\x00') : pos'.length + 3 ≤ pos.length := by
  have hlength := (driveLetters_spec o pos [] ctx).2 letters pos' h
  have hletters : 2 < letters.length := by
    by_contra hletters
    exact hne (hc.symm.trans (List.getD_eq_default _ _ (Nat.le_of_not_lt hletters)))
  rw [List.length_nil] at hlength
  omega

section DriveLetter

variable {o O} {e : ComponentEncoder σ} (hbeg : e.ctx.pos <:+ e.ctx.beg)
include hbeg

/-- The three characters are there, and the position ends one before `pos`, or behind it. -/
theorem storeDriveLetter_safe {letter third : Char} {pos : List Char}
    (hthree : 3 ≤ e.ctx.pos.length) (hpos : pos.length < e.ctx.pos.length) :
    Safe (fun e' => Ahead e.ctx e'.ctx) (storeDriveLetter O letter third pos e) := by
  obtain ⟨c, c', c'', rest, hcons⟩ : ∃ c c' c'' rest, e.ctx.pos = c :: c' :: c'' :: rest := by
    rcases hcons : e.ctx.pos with _ | ⟨c, _ | ⟨c', _ | ⟨c'', rest⟩⟩⟩
    · simp [hcons] at hthree
    · simp [hcons] at hthree
    · simp [hcons] at hthree
    · exact ⟨c, c', c'', rest, rfl⟩
  rw [storeDriveLetter]
  refine (nextSegment_cons (e := e.setWarning .windowsDriveLetterUsed) hcons).bind
    fun e₁ h₁ => ?_
  refine (appendInplaceOf_cons h₁.pos letter).bind fun e₂ h₂ => ?_
  refine (appendInplaceOf_cons h₂.pos ':').bind fun e₃ h₃ => ?_
  have hmoved := (h₁.of_setWarning.trans h₂).trans h₃
  have hretreat := retreat_safe hbeg hpos
  rw [← hmoved.beg] at hretreat
  refine Sat.bind hretreat fun before hbefore => ?_
  obtain ⟨hsuffix, hlength⟩ := hbefore
  have hset : MovedTo before e.ctx (e₃.setPos before).ctx := hmoved.setPos before
  cases before with
  | nil => cases hlength
  | cons d before =>
      have hsuffix' := (List.suffix_cons d before).trans hsuffix
      simp only
      split
      · split
        · exact (nextSegment_cons (e := e₃.setPos (d :: before)) rfl).mono fun e' he' =>
            ⟨before, hsuffix', hset.trans he'⟩
        · refine (appendInplaceOf_cons (e := e₃.setPos (d :: before)) rfl '/').bind
            fun e₄ h₄ => ?_
          refine (nextSegment_safe (Nat.zero_le _)).mono fun e' he' => ?_
          rw [List.drop_zero, h₄.pos] at he'
          exact ⟨before, hsuffix', (hset.trans h₄).trans he'⟩
      · exact ⟨_, hsuffix, hset.trans (endSegment_movedTo O .path (e₃.setPos (d :: before)))⟩

theorem handleWindowsDriverLetter_safe (hround : DriveLetterRound o e.ctx) :
    Safe (fun e' => Ahead e.ctx e'.ctx) (handleWindowsDriverLetter o O e) := by
  rw [handleWindowsDriverLetter]
  split
  · rename_i hfile
    obtain ⟨hhandle, hscheme⟩ := Bool.and_eq_true_iff.mp hfile
    rcases hpos : e.ctx.pos with _ | ⟨c, _ | ⟨c', _ | ⟨c'', rest⟩⟩⟩
    · exact .refl e.ctx
    · exact .refl e.ctx
    · simp only [hround hhandle hscheme c c' hpos]
      exact .refl e.ctx
    · have hmoved := (driveLetters_spec o e.ctx.pos [] e.ctx).1
      have hahead : Ahead e.ctx (driveLetters o e.ctx.pos [] e.ctx).2 :=
        ⟨_, List.suffix_refl _, hmoved⟩
      have hstore {pos : List Char} (hlt : pos.length < e.ctx.pos.length) (letter third : Char) :
          Safe (fun e' => Ahead e.ctx e'.ctx) (storeDriveLetter O letter third pos
            { e with ctx := (driveLetters o e.ctx.pos [] e.ctx).2 }) := by
        have hthree : 3 ≤ e.ctx.pos.length := by
          rw [hpos]
          exact Nat.le_add_left 3 rest.length
        rw [← hmoved.pos] at hlt hthree
        rw [← hmoved.pos, ← hmoved.beg] at hbeg
        exact (storeDriveLetter_safe hbeg hthree hlt).mono fun e' he' => hahead.trans he'
      simp only
      rw [← hpos]
      split
      · exact hahead
      · rename_i letters pos heq
        split
        · split
          · rename_i hslash
            have hthird : pos.length + 3 ≤ e.ctx.pos.length := by
              rcases hslash with hc | hc
              · exact driveLetters_third o heq hc (by decide)
              · exact driveLetters_third o heq hc (by decide)
            exact hstore (Nat.lt_of_lt_of_le (Nat.lt_add_of_pos_right (by decide)) hthird) _ _
          · split
            · rename_i hstop
              have hthird : pos.length + 3 ≤ e.ctx.pos.length := by
                rcases hstop with hc | hc
                · exact driveLetters_third o heq hc (by decide)
                · exact driveLetters_third o heq hc (by decide)
              have hretreat := retreat_safe hbeg (show pos.length < e.ctx.pos.length by omega)
              rw [← hmoved.beg] at hretreat
              exact Sat.bind hretreat fun before hbefore => hstore (by omega) _ _
            · exact hahead
        · exact hahead
  · exact .refl e.ctx

end DriveLetter

/-! ## Paths of special URIs -/

/-- The round does not read past the end. -/
def PathRound (e : ComponentEncoder σ) : Prop :=
  EscapeInside o.ignoreTabsOrNewlines ((pathInteresting O).findFirstIn e.ctx.pos)

section Special

variable {o O} {start : Ctx σ} {e : ComponentEncoder σ} {c : Char} {rest : List Char}

/-- What a round of `parse_path` leads to. -/
abbrev PathFlow (start : Ctx σ) (e : ComponentEncoder σ) :
    Flow (ComponentEncoder σ) (ComponentEncoder σ) → Prop :=
  EncoderFlow start (fun e' => Leaves 3 start e'.ctx) e

variable (hO : O.Lawful) (h : Ahead start e.ctx)
include hO h

theorem pathSlash_safe (hpos : e.ctx.pos = c :: rest) :
    Safe (PathFlow start e) (pathSlash o O e) := by
  rw [pathSlash]
  refine (handleDotsInPaths_safe e hO).bind fun r hr => ?_
  have hcons := hr.pos.trans hpos
  split
  · refine (ignoreCharacter_cons hcons).bind fun e' he' => ?_
    have hreset := resetSegmentStart_movedTo O .path e'
    rw [he'.pos] at hreset
    exact h.passed hpos ((hr.trans he').trans hreset)
  · refine (nextSegmentOf_cons hcons '/').bind fun e' he' => ?_
    exact h.passed hpos (hr.trans he')

theorem pathSwitch_safe (hpos : e.ctx.pos = c :: rest)
    (hinside : EscapeInside o.ignoreTabsOrNewlines (c :: rest)) :
    Safe (PathFlow start e) (pathSwitch o O e c) := by
  have htab : Safe (PathFlow start e)
      (if o.ignoreTabsOrNewlines = true then do
        let e ← (e.setWarning .invalidCharacter).ignoreCharacter
        pure (.next e)
      else pure (.done (e.setWarning .invalidCharacter))) := by
    split
    · refine (ignoreCharacter_cons (e := e.setWarning _) hpos).bind fun e' he' => ?_
      exact h.passed hpos he'.of_setWarning
    · exact (h.setWarning _).leaves
  rw [pathSwitch.eq_def]
  split
  · exact pathSlash_safe (e := e.setWarning _) hO (h.setWarning _) hpos
  · exact pathSlash_safe hO h hpos
  · exact h.leaves_valid (show UriStatus.rank .validQueries < 3 by decide)
  · exact h.leaves_valid (show UriStatus.rank .validFragment < 3 by decide)
  · refine (validatePercentEncode_safe hpos hinside).bind fun r hr => ?_
    obtain ⟨hr, hlt⟩ := h.escape hpos hr
    split
    · exact ⟨hr, hlt⟩
    · exact ⟨hr.setWarning _, hlt⟩
  · exact htab
  · exact htab
  · exact htab
  · split
    · exact h.leaves
    · exact (h.setWarning _).leaves
  · exact (h.setWarning _).leaves

theorem pathStep_safe (hround : PathRound o O e) :
    Safe (PathFlow start e) (pathStep o O e) := by
  rw [pathStep]
  refine stop_safe h (encodeOrValidate_movedTo O .path pathEncodeSet (pathInteresting O) e)
    (fun hahead => hahead.leaves) fun c rest hahead hcons hpos hsuffix => ?_
  rw [PathRound, hpos] at hround
  exact EncoderFlow.mono hsuffix.length_le (pathSwitch_safe hO hahead hcons hround)

omit h in
theorem pathEnd_safe (hbeg : start.pos <:+ start.beg) (hleaves : Leaves 3 start e.ctx) :
    Safe (Proceeds 3 start) (pathEnd o O e) := by
  rw [pathEnd]
  refine (handleDotsInPaths_safe e hO).bind fun r hr => ?_
  have hmoved := hr.trans (hr.pos ▸ setValue_endSegment_movedTo O .path r.2)
  have hleft := hleaves.moved hmoved (List.suffix_refl _)
  generalize setValue O .path (endSegment O .path r.2) = e' at hleft
  simp only
  split
  · rename_i hstop
    have hne : e'.ctx.pos ≠ [] := by
      rintro hnil
      simp [hnil] at hstop
    refine (ignoreCharacter_safe (List.length_pos_of_ne_nil hne)).bind fun e'' he'' => ?_
    rw [List.drop_one] at he''
    exact hleft.proceeds he'' hbeg (List.tail_suffix _) (tail_length_lt hne)
  · have hvalid {e'' : ComponentEncoder σ} (h : MovedTo e'.ctx.pos e'.ctx e''.ctx) :
        Proceeds 3 start (e''.setValid .valid).ctx :=
      (hleft.moved h (List.suffix_refl _)).lower hbeg _ (show UriStatus.rank .valid < 3 by decide)
    split
    · exact (nextSegmentOf_safe '/' (Nat.zero_le _)).bind fun e'' he'' => hvalid he''
    · exact hvalid (.refl _)

end Special

/-- No round of `parse_opaque_path` passes the end. -/
def OpaquePathRounds (ctx : Ctx σ) : Prop :=
  ∀ e, Reaches (opaquePathStep o O) (startSegment O .path (ofCtx ctx)) e → OpaquePathRound o e

/-- No round of `parse_path` passes the end, nor does the treatment of a drive letter. -/
def PathRounds (ctx : Ctx σ) : Prop :=
  if isSpecialScheme ctx.scheme then
    DriveLetterRound o ctx ∧
      ∀ e₀ e, handleWindowsDriverLetter o O (startSegment O .path (ofCtx ctx)) = .ok e₀ →
        Reaches (pathStep o O) e₀ e → PathRound o O e
  else OpaquePathRounds o O ctx

theorem parsePath_safe {o : Options} {O : Output σ} (hO : O.Lawful) {ctx : Ctx σ}
    (hbeg : ctx.pos <:+ ctx.beg) (hrounds : PathRounds o O ctx) :
    Safe (Proceeds 3 ctx) (parsePath o O ctx) := by
  have hstart := startSegment_movedTo O .path (ofCtx ctx)
  rw [PathRounds] at hrounds
  rw [parsePath]
  split at hrounds
  · rename_i hspecial
    rw [if_pos hspecial]
    obtain ⟨hletter, hrounds⟩ := hrounds
    have hahead : Ahead ctx (startSegment O .path (ofCtx ctx)).ctx :=
      ⟨_, List.suffix_refl _, hstart⟩
    have hhandle : Safe (fun e => Ahead (startSegment O .path (ofCtx ctx)).ctx e.ctx)
        (handleWindowsDriverLetter o O (startSegment O .path (ofCtx ctx))) := by
      refine handleWindowsDriverLetter_safe ?_ ?_
      · rw [hstart.pos, hstart.beg]
        exact hbeg
      · rw [DriveLetterRound, hstart.pos, hstart.scheme]
        exact hletter
    refine hhandle.and_ok.bind fun e₀ he₀ => ?_
    refine Sat.bind (P := fun e => Leaves 3 ctx e.ctx) ?_ fun e he => pathEnd_safe hO hbeg he
    exact loop_sat (fun e => Ahead ctx e.ctx) _ (fun e => e.ctx.pos.length) (hahead.trans he₀.1)
      (fun e hreach hahead => pathStep_safe hO hahead (hrounds e₀ e he₀.2 hreach))
      (Nat.lt_succ_self _)
  · rename_i hspecial
    rw [if_neg hspecial]
    exact parseOpaquePath_safe o O hbeg hrounds

end Webpp.Uri
