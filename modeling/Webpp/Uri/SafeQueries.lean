import Webpp.Uri.ParseUri
import Webpp.Uri.Safe

/-!
# Safety of queries and fragments

Every round of the two loops moves on, and only an escape that breaks off at the end can
take them past it.
-/

namespace Webpp.Uri

open ComponentEncoder Loop

variable {σ : Type} (o : Options) (O : Output σ)

/-! ## Queries -/

/-- The round does not read past the end. -/
def QueriesRound (s : QueriesState σ) : Prop :=
  EscapeInside o.ignoreTabsOrNewlines ((queriesInteresting O).findFirstIn s.encoder.ctx.pos)

/-- What the rounds keep, from the context `start` on. -/
def QueriesInv (start : Ctx σ) (s : QueriesState σ) : Prop := Ahead start s.encoder.ctx

/-- How the loop is left. -/
def QueriesLeft (start : Ctx σ) : QueriesExit σ → Prop
  | .broke s => Leaves 2 start s.encoder.ctx
  | .returned ctx => Proceeds 2 start ctx

/-- What a round leads to: the position moves on, or the loop is left. -/
abbrev QueriesFlow (start : Ctx σ) (s : QueriesState σ) :
    Flow (QueriesState σ) (QueriesExit σ) → Prop :=
  FlowSat (fun s' => QueriesInv start s' ∧
    s'.encoder.ctx.pos.length < s.encoder.ctx.pos.length) (QueriesLeft start)

section Rounds

variable {o O} {start : Ctx σ} {s : QueriesState σ} {c : Char} {rest : List Char}

/-- A round that moves behind the character, and does not change the status. -/
theorem QueriesInv.passed (h : QueriesInv start s) (hpos : s.encoder.ctx.pos = c :: rest)
    {e : ComponentEncoder σ} (hmoved : MovedTo rest s.encoder.ctx e.ctx) (inValue : Bool) :
    QueriesFlow start s (.next ⟨e, inValue⟩) := by
  refine ⟨h.moved ?_ hmoved, ?_⟩
  · rw [hpos]
    exact List.suffix_cons ..
  · rw [hmoved.pos, hpos]
    exact Nat.lt_succ_self _

theorem QueriesInv.returned (h : QueriesInv start s) (hbeg : start.pos <:+ start.beg) :
    QueriesFlow start s
      (.done (.returned (s.encoder.ctx.setError .invalidQueriesCharacter))) :=
  h.proceeds hbeg _ (show UriStatus.rank .invalidQueriesCharacter < 2 by decide)

theorem QueriesInv.broke (h : QueriesInv start s) :
    QueriesFlow start s (.done (.broke s)) := h.leaves

section Cons

variable (h : QueriesInv start s) (hpos : s.encoder.ctx.pos = c :: rest)
  (hbeg : start.pos <:+ start.beg)
include h hpos hbeg

theorem queriesDefault_safe : Safe (QueriesFlow start s) (queriesDefault o O s) := by
  rw [queriesDefault]
  split
  · refine (skipSeparator_cons (e := s.encoder.setWarning _) hpos).bind fun e he => ?_
    exact h.passed hpos he.of_setWarning s.inValue
  · exact h.returned hbeg

theorem queriesTab_safe : Safe (QueriesFlow start s) (queriesTab o O s) := by
  rw [queriesTab]
  split
  · refine (ignoreCharacter_cons (e := s.encoder.setWarning _) hpos).bind fun e he => ?_
    exact h.passed hpos he.of_setWarning s.inValue
  · exact queriesDefault_safe h hpos hbeg

omit hbeg in
theorem queriesEq_safe (hmap : isMap O .queries = true) :
    Safe (QueriesFlow start s) (queriesSwitch o O s '=') := by
  have hseg : O.isSegregated = true := (Bool.and_eq_true_iff.mp hmap).1
  rw [queriesSwitch]
  split
  · refine (appendQueryValue_cons hpos hmap).bind fun e he => ?_
    exact h.passed hpos he true
  · have hname := setQueryName_movedTo O s.encoder
    refine (skipSeparator_cons (hname.pos.trans hpos)).bind fun e he => ?_
    exact h.passed hpos (hname.trans he) true

omit hbeg in
theorem queriesAmp_safe (hmap : isMap O .queries = true) :
    Safe (QueriesFlow start s) (queriesSwitch o O s '&') := by
  have hseg : O.isSegregated = true := (Bool.and_eq_true_iff.mp hmap).1
  have hvalue := setQueryValue_movedTo O s.encoder
  rw [queriesSwitch]
  simp only [hseg, if_true]
  refine (skipSeparator_cons (hvalue.pos.trans hpos)).bind fun e he => ?_
  have hnext := nextQuery_movedTo O .queries e
  rw [he.pos] at hnext
  exact h.passed hpos ((hvalue.trans he).trans hnext) false

end Cons

theorem queriesPercent_safe (h : QueriesInv start s) (hpos : s.encoder.ctx.pos = '%' :: rest)
    (hbeg : start.pos <:+ start.beg)
    (hinside : EscapeInside o.ignoreTabsOrNewlines ('%' :: rest)) :
    Safe (QueriesFlow start s) (queriesSwitch o O s '%') := by
  rw [queriesSwitch]
  refine (validatePercentEncode_safe hpos hinside).bind fun r hr => ?_
  obtain ⟨hr, hlt⟩ := Ahead.escape h hpos hr
  split
  · exact ⟨hr, hlt⟩
  · split
    · exact ⟨hr.setWarning _, hlt⟩
    · exact hr.proceeds hbeg _ (show UriStatus.rank .invalidQueriesCharacter < 2 by decide)

theorem queriesSwitch_safe (h : QueriesInv start s) (hpos : s.encoder.ctx.pos = c :: rest)
    (hbeg : start.pos <:+ start.beg)
    (hc : (queriesInteresting O).contains c = true)
    (hinside : EscapeInside o.ignoreTabsOrNewlines (c :: rest)) :
    Safe (QueriesFlow start s) (queriesSwitch o O s c) := by
  have hmap (hc : (queriesInteresting O).contains c = true) (hne : c = '=' ∨ c = '&') :
      isMap O .queries = true := by
    rw [queriesInteresting] at hc
    split at hc
    · exact Bool.and_eq_true_iff.mpr ⟨‹_›, rfl⟩
    · rcases hne with rfl | rfl
      · exact absurd hc (by decide)
      · exact absurd hc (by decide)
  by_cases heq : c = '='
  · subst heq
    exact queriesEq_safe h hpos (hmap hc (.inl rfl))
  by_cases hamp : c = '&'
  · subst hamp
    exact queriesAmp_safe h hpos (hmap hc (.inr rfl))
  by_cases hpercent : c = '%'
  · subst hpercent
    exact queriesPercent_safe h hpos hbeg hinside
  rw [queriesSwitch.eq_def]
  split
  · exact ⟨h.beg, h.pos, .inr (show UriStatus.rank .validFragment < 2 by decide)⟩
  · exact absurd rfl hpercent
  · exact absurd rfl heq
  · exact absurd rfl hamp
  · split
    · exact h.broke
    · exact queriesTab_safe h hpos hbeg
  · exact queriesTab_safe h hpos hbeg
  · exact queriesTab_safe h hpos hbeg
  · exact queriesTab_safe h hpos hbeg
  · exact queriesDefault_safe h hpos hbeg

theorem queriesStep_safe (h : QueriesInv start s) (hbeg : start.pos <:+ start.beg)
    (hround : QueriesRound o O s) (encodeSet : AsciiBitmap) :
    Safe (QueriesFlow start s) (queriesStep o O encodeSet s) := by
  rw [queriesStep]
  refine stop_safe h (encodeOrValidateMap_movedTo O .queries encodeSet (queriesInteresting O)
    s.inValue s.encoder) (fun hahead => ?_) fun c rest hahead hcons hpos hsuffix => ?_
  · exact QueriesInv.broke (s := ⟨_, s.inValue⟩) hahead
  · have hinside : EscapeInside o.ignoreTabsOrNewlines (c :: rest) := by
      rw [← hpos]
      exact hround
    refine (queriesSwitch_safe (s := ⟨_, s.inValue⟩) hahead hcons hbeg
      (contains_of_findFirstIn hpos) hinside).mono fun flow hflow => ?_
    cases flow with
    | next s' => exact ⟨hflow.1, Nat.lt_of_lt_of_le hflow.2 hsuffix.length_le⟩
    | done exit => exact hflow

end Rounds

theorem queriesEnd_safe {start : Ctx σ} {s : QueriesState σ} (hbeg : start.pos <:+ start.beg)
    (h : QueriesLeft start (.broke s)) : Safe (Proceeds 2 start) (queriesEnd O s) := by
  have hname : MovedTo s.encoder.ctx.pos s.encoder.ctx
      (if O.isSegregated then
        if s.inValue then setQueryValue O s.encoder else setQueryName O s.encoder
      else s.encoder).ctx := by
    split
    · split
      · exact setQueryValue_movedTo O s.encoder
      · exact setQueryName_movedTo O s.encoder
    · exact .refl _
  rw [queriesEnd]
  generalize (if O.isSegregated then
      if s.inValue then setQueryValue O s.encoder else setQueryName O s.encoder
    else s.encoder) = e at hname
  have hset := setValue_movedTo O .queries e
  rw [hname.pos] at hset
  have hmoved := hname.trans hset
  generalize ComponentEncoder.setValue O .queries e = e' at hmoved
  have hleaves : Leaves 2 start e'.ctx := Leaves.moved h hmoved (List.suffix_refl _)
  simp only
  split
  · exact hleaves.proceeds_valid hbeg (show UriStatus.rank .valid < 2 by decide)
      (List.suffix_refl _) (nextQuery_movedTo O .queries (e'.setValid .valid))
  · rename_i hne
    refine (ignoreCharacter_safe (List.length_pos_of_ne_nil hne)).bind fun e'' he'' => ?_
    have hnext := nextQuery_movedTo O .queries e''
    rw [List.drop_one] at he''
    rw [he''.pos] at hnext
    exact hleaves.proceeds (he''.trans hnext) hbeg (List.tail_suffix _) (tail_length_lt hne)

theorem parseQueries_safe {o : Options} {ctx : Ctx σ}
    (ho : o.parseQueries = true ∨ ctx.pos = [] ∨ o.allowInvalidCharacters = false)
    (hbeg : ctx.pos <:+ ctx.beg)
    (hrounds : ∀ s, Reaches (queriesStep o O (queryPercentEncodeSet ctx.scheme))
      ⟨ofCtx ctx, false⟩ s → QueriesRound o O s) :
    Safe (Proceeds 2 ctx) (parseQueries o O ctx) := by
  have hvalid : Proceeds 2 ctx (ctx.setValid .valid) :=
    Ahead.proceeds (.refl ctx) hbeg _ (show UriStatus.rank .valid < 2 by decide)
  rw [parseQueries]
  split
  · split
    · exact hvalid
    · have hstart : QueriesInv ctx ⟨ofCtx ctx, false⟩ := Ahead.refl ctx
      refine Sat.bind (P := QueriesLeft ctx) ?_ fun exit hexit => ?_
      · exact loop_sat (QueriesInv ctx) (QueriesLeft ctx) (fun s => s.encoder.ctx.pos.length)
          hstart
          (fun s hreach hinv => queriesStep_safe hinv hbeg (hrounds s hreach) _)
          (Nat.lt_succ_self _)
      · cases exit with
        | broke s => exact queriesEnd_safe O hbeg hexit
        | returned ctx' => exact hexit
  · rename_i hoff
    split
    · exact hvalid
    · rename_i hne
      rw [(ho.resolve_left hoff).resolve_left hne, if_neg Bool.false_ne_true]
      exact Ahead.proceeds (.refl ctx) hbeg _
        (show UriStatus.rank .invalidQueriesCharacter < 2 by decide)

/-! ## Fragments -/

/-- The round does not read past the end. -/
def FragmentRound (e : ComponentEncoder σ) : Prop :=
  EscapeInside o.ignoreTabsOrNewlines ((asciiBitmap ['%']).findFirstIn e.ctx.pos)

theorem fragmentStep_safe {o : Options} {O : Output σ} {start : Ctx σ} {e : ComponentEncoder σ}
    (h : Ahead start e.ctx) (hround : FragmentRound o e) :
    Safe (FlowSat (fun e' => Ahead start e'.ctx ∧ e'.ctx.pos.length < e.ctx.pos.length)
      (fun e' => Ahead start e'.ctx)) (fragmentStep o O e) := by
  rw [fragmentStep]
  refine stop_safe h (encodeOrValidate_movedTo O .fragment fragmentEncodeSet (asciiBitmap ['%']) e)
    (fun hahead => hahead) fun c rest hahead hcons hpos hsuffix => ?_
  have hc := List.mem_singleton.mp (mem_of_asciiBitmap_contains (contains_of_findFirstIn hpos))
  subst hc
  rw [FragmentRound, hpos] at hround
  rw [if_pos rfl]
  refine (validatePercentEncode_safe hcons hround).bind fun r hr => ?_
  obtain ⟨hr, hlt⟩ := hahead.escape hcons hr
  have hlt' := Nat.lt_of_lt_of_le hlt hsuffix.length_le
  split
  · exact ⟨hr, hlt'⟩
  · exact ⟨hr.setWarning _, hlt'⟩

theorem parseFragment_safe {o : Options} {ctx : Ctx σ}
    (ho : o.parseFragment = true ∨ ctx.pos = []) (hbeg : ctx.pos <:+ ctx.beg)
    (hrounds : ∀ e, Reaches (fragmentStep o O) (ofCtx ctx) e → FragmentRound o e) :
    Safe (Proceeds 1 ctx) (parseFragment o O ctx) := by
  rw [parseFragment]
  split
  · exact Ahead.proceeds (.refl ctx) hbeg _ (show UriStatus.rank .valid < 1 by decide)
  · rename_i hne
    rw [if_pos (ho.resolve_right hne)]
    refine Sat.bind (P := fun e => Ahead ctx e.ctx) ?_ fun e he => ?_
    · exact loop_sat (fun e => Ahead ctx e.ctx) (fun e => Ahead ctx e.ctx)
        (fun e => e.ctx.pos.length) (Ahead.refl ctx)
        (fun e hreach hahead => fragmentStep_safe hahead (hrounds e hreach))
        (Nat.lt_succ_self _)
    · have hset := he.moved (List.suffix_refl _) (setValue_movedTo O .fragment e)
      exact hset.proceeds hbeg _ (show UriStatus.rank .valid < 1 by decide)

end Webpp.Uri
