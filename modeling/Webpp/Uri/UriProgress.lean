import Webpp.Uri.SafeUri

/-!
# Progress of `parse_uri`

Whatever the options are, a round changes the status or moves the position, and the run
ends, as long as the rounds keep to the text and the component that comes next is parsed
(`parseUri_runsToEnd_iff`). A component that is switched off is never left: the parser
sets a warning and returns, and the next round calls it again.
-/

namespace Webpp.Uri

open ComponentEncoder Ctx Loop

variable {σ : Type} {o : Options} {O : Output σ} {text : List Char} {ctx ctx' : Ctx σ}

/-- The value of the status changes, or the position moves on. -/
def Advances (ctx ctx' : Ctx σ) : Prop :=
  ctx'.status.value ≠ ctx.status.value ∨
    ctx'.pos <:+ ctx.beg ∧ ctx'.pos.length < ctx.pos.length

/-- The loop ends, at most with `std::out_of_range`; each of its rounds makes progress, and no
round is in a state that should be impossible. -/
structure RunsToEnd (o : Options) (O : Output σ) (start : Ctx σ) : Prop where
  ends : Safe (fun _ => True) (parseUri o O start)
  advances : ∀ ctx ctx', Reaches (parseUriRound o O) start ctx →
    parseUriRound o O ctx = .ok (.next ctx') → Advances ctx ctx'
  reachable : ∀ ctx, Reaches (parseUriRound o O) start ctx →
    parseUriRound o O ctx ≠ .error .unreachable

theorem UriFlow.advances (h : UriInv o text ctx) (hflow : UriFlow o text ctx (.next ctx')) :
    Advances ctx ctx' := by
  obtain ⟨hinv, hlt⟩ := hflow
  by_cases hvalue : ctx'.status.value = ctx.status.value
  · refine .inr ⟨?_, ?_⟩
    · rw [h.beg]
      exact hinv.pos
    · rw [uriMeasure, uriMeasure, hvalue, hinv.beg, h.beg] at hlt
      exact Nat.lt_of_add_lt_add_left hlt
  · exact .inl hvalue

/-- What the rounds of a run that keeps to the text leave, when no component is switched
off. -/
theorem runsToEnd_of_rounds (hO : O.Lawful) (out : σ) (text : List Char)
    (hrounds : ∀ ctx, Reaches (parseUriRound o O) (startCtx out text) ctx →
      UriRound o O ctx ∧ SwitchedOn o ctx) : RunsToEnd o O (startCtx out text) := by
  have hround (ctx : Ctx σ) (hreach : Reaches (parseUriRound o O) (startCtx out text) ctx)
      (h : UriInv o text ctx) : Safe (UriFlow o text ctx) (parseUriRound o O ctx) :=
    parseUriRound_safe hO (hrounds ctx hreach).2 h (hrounds ctx hreach).1
  have hinv (ctx : Ctx σ) (hreach : Reaches (parseUriRound o O) (startCtx out text) ctx) :
      UriInv o text ctx := by
    refine hreach.invariant (uriInv_startCtx out text) fun ctx ctx' hreach h hstep => ?_
    have hsafe := hround ctx hreach h
    rw [hstep] at hsafe
    exact hsafe.1
  refine ⟨?_, fun ctx ctx' hreach hstep => ?_, fun ctx hreach hfault => ?_⟩
  · have hrun : Safe (UriInv o text) (parseUri o O (startCtx out text)) :=
      loop_sat (UriInv o text) _ uriMeasure (uriInv_startCtx out text) hround
        (uriMeasure_startCtx out text)
    exact hrun.mono fun ctx _ => trivial
  · have hsafe := hround ctx hreach (hinv ctx hreach)
    rw [hstep] at hsafe
    exact UriFlow.advances (hinv ctx hreach) hsafe
  · have hsafe := hround ctx hreach (hinv ctx hreach)
    rw [hfault] at hsafe
    exact Fault.noConfusion hsafe

/-! ## Components that are switched off -/

/-- What the parser of a component that is switched off does: the position passes ignored
characters at most, and the status keeps its value. -/
structure Waits (o : Options) (ctx ctx' : Ctx σ) : Prop where
  value : ctx'.status.value = ctx.status.value
  scheme : ctx'.scheme = ctx.scheme
  off : ¬SwitchedOn o ctx'

theorem switchedOff_cases (h : ¬SwitchedOn o ctx) :
    ctx.status.value = .validPort ∧ o.parsePort = false ∧ ctx.pos ≠ [] ∨
      ctx.status.value = .validAuthorityEnd ∧ ctx.pos ≠ [] ∧
        isSpecialScheme ctx.scheme = false ∧ ¬EndSwitchedOn o ctx.pos ∨
      ctx.status.value = .validQueries ∧ o.parseQueries = false ∧ ctx.pos ≠ [] ∧
        o.allowInvalidCharacters = true ∨
      ctx.status.value = .validFragment ∧ o.parseFragment = false ∧ ctx.pos ≠ [] := by
  rw [SwitchedOn] at h
  split at h
  · rename_i hvalue
    rw [not_or, Bool.not_eq_true] at h
    exact .inl ⟨hvalue, h⟩
  · rename_i hvalue
    rw [Classical.not_imp, Classical.not_imp] at h
    exact .inr (.inl ⟨hvalue, h⟩)
  · rename_i hvalue
    rw [not_or, not_or, Bool.not_eq_true, Bool.not_eq_false] at h
    exact .inr (.inr (.inl ⟨hvalue, h⟩))
  · rename_i hvalue
    rw [not_or, Bool.not_eq_true] at h
    exact .inr (.inr (.inr ⟨hvalue, h⟩))
  · exact absurd trivial h

theorem authorityEndOther_waits {pos : List Char} (hoff : ¬EndSwitchedOn o pos) (ctx : Ctx σ) :
    ∃ ctx', authorityEndOther o O pos ctx = .ok ctx' ∧
      ctx'.status.value = ctx.status.value ∧ ctx'.scheme = ctx.scheme ∧ ctx'.pos ≠ [] ∧
        ¬EndSwitchedOn o ctx'.pos := by
  induction pos generalizing ctx with
  | nil => exact absurd ⟨(fun h => nomatch h), (fun h => nomatch h)⟩ hoff
  | cons c pos ih =>
      rw [authorityEndOther]
      simp only
      by_cases hquery : c = '?'
      · have hparse : ¬o.parseQueries = true := by
          intro hparse
          refine hoff ⟨fun _ => hparse, fun hhash => ?_⟩
          rw [firstRead_cons fun h => absurd h.1 (by rw [hquery]; decide), hquery] at hhash
          cases hhash
        rw [if_pos hquery, if_neg hparse]
        exact ⟨_, rfl, rfl, rfl, List.cons_ne_nil _ _, hoff⟩
      · by_cases hhash : c = '#'
        · have hparse : ¬o.parseFragment = true := by
            intro hparse
            refine hoff ⟨fun h => ?_, fun _ => hparse⟩
            rw [firstRead_cons fun h => absurd h.1 (by rw [hhash]; decide), hhash] at h
            cases h
          rw [if_neg hquery, if_pos hhash, if_neg hparse]
          exact ⟨_, rfl, rfl, rfl, List.cons_ne_nil _ _, hoff⟩
        · rw [if_neg hquery, if_neg hhash]
          by_cases htab : isTabOrNewline c = true ∧ o.ignoreTabsOrNewlines = true
          · have hfirst : firstRead o (c :: pos) = firstRead o pos := firstRead_cons_ignored htab
            rw [if_pos htab]
            refine ih (fun hon => hoff ⟨fun h => hon.queries (hfirst.symm.trans h),
              fun h => hon.fragment (hfirst.symm.trans h)⟩) _
          · have hfirst : firstRead o (c :: pos) = some c := firstRead_cons htab
            refine absurd ⟨fun h => ?_, fun h => ?_⟩ hoff
            · exact absurd (Option.some.inj (hfirst.symm.trans h)) hquery
            · exact absurd (Option.some.inj (hfirst.symm.trans h)) hhash

theorem parseUriRound_waits (h : ¬SwitchedOn o ctx) :
    ∃ ctx', parseUriRound o O ctx = .ok (.next ctx') ∧ Waits o ctx ctx' := by
  rcases switchedOff_cases h with ⟨hvalue, hoff, hne⟩ | ⟨hvalue, hne, hspecial, hoff⟩ |
    ⟨hvalue, hoff, hne, hallow⟩ | ⟨hvalue, hoff, hne⟩
  · refine ⟨ctx.setWarning .invalidCharacter, ?_, rfl, rfl, h⟩
    rw [parseUriRound, Status.hasError, hvalue, parseUriStep, hvalue]
    simp only [parsePort, if_neg hne, hoff]
    rfl
  · obtain ⟨ctx', hstep, hvalue', hscheme, hne', hoff'⟩ :=
      authorityEndOther_waits (O := O) hoff ctx
    refine ⟨ctx', ?_, hvalue', hscheme, ?_⟩
    · rw [parseUriRound, Status.hasError, hvalue, parseUriStep, hvalue]
      simp only [parseAuthorityEnd, if_neg hne, hspecial, hstep]
      rfl
    · rw [SwitchedOn, hvalue', hvalue]
      simp only
      exact fun hon => hoff' (hon hne' (hscheme ▸ hspecial))
  · refine ⟨ctx.setWarning .invalidCharacter, ?_, rfl, rfl, h⟩
    rw [parseUriRound, Status.hasError, hvalue, parseUriStep, hvalue]
    simp only [parseQueries, if_neg hne, hoff, hallow]
    rfl
  · refine ⟨ctx.setWarning .invalidCharacter, ?_, rfl, rfl, h⟩
    rw [parseUriRound, Status.hasError, hvalue, parseUriStep, hvalue]
    simp only [parseFragment, if_neg hne, hoff]
    rfl

theorem loop_waits (h : ¬SwitchedOn o ctx) (n : ℕ) :
    loop (parseUriRound o O) .diverges n ctx = .error .diverges := by
  induction n generalizing ctx with
  | zero => rfl
  | succ n ih =>
      obtain ⟨ctx', hstep, hwaits⟩ := parseUriRound_waits (O := O) h
      rw [loop_of_next hstep]
      exact ih hwaits.off

theorem loop_of_reaches {start : Ctx σ} (hreach : Reaches (parseUriRound o O) start ctx) {n : ℕ}
    (h : loop (parseUriRound o O) .diverges n start ≠ .error .diverges) :
    ∃ m, loop (parseUriRound o O) .diverges m ctx ≠ .error .diverges := by
  induction hreach with
  | refl => exact ⟨n, h⟩
  | next hreach hstep ih =>
      obtain ⟨m, hm⟩ := ih
      cases m with
      | zero => exact absurd rfl hm
      | succ m =>
          rw [loop_of_next hstep] at hm
          exact ⟨m, hm⟩

end Webpp.Uri
