import Webpp.Uri.Encoder

/-!
# Safe operations

A computation is safe when it does not fault, except by an exception. `MovedTo` says what
the operations of the encoder leave of the context: the output may change, and the
position is the given one.
-/

namespace Webpp.Uri

open ComponentEncoder Loop Webpp.Text

variable {σ : Type} {ctx ctx' ctx'' : Ctx σ} {ctx ctx' : Ctx σ} {e : ComponentEncoder σ}
  {rest : List Char} {check : Bool}

/-- No fault but `std::out_of_range`, and a result with the property `P`. -/
abbrev Safe {α : Type} (P : α → Prop) (x : Run α) : Prop := Sat (· = Fault.outOfRange) P x

/-- The output faults only where a change of its texts does. -/
def Output.Lawful (O : Output σ) : Prop :=
  ∀ comp f out, (∀ text, Safe (fun _ => True) (f text)) → Safe (fun _ => True) (O.edit comp f out)

/-- The context `ctx'` is `ctx` with another output, other warnings and the position `pos`. -/
structure MovedTo (pos : List Char) (ctx ctx' : Ctx σ) : Prop where
  beg : ctx'.beg = ctx.beg
  scheme : ctx'.scheme = ctx.scheme
  value : ctx'.status.value = ctx.status.value
  pos : ctx'.pos = pos

namespace MovedTo

variable {ctx ctx' ctx'' : Ctx σ} {pos pos' : List Char}

theorem refl (ctx : Ctx σ) : MovedTo ctx.pos ctx ctx := ⟨rfl, rfl, rfl, rfl⟩

theorem trans (h : MovedTo pos ctx ctx') (h' : MovedTo pos' ctx' ctx'') :
    MovedTo pos' ctx ctx'' :=
  ⟨h'.beg.trans h.beg, h'.scheme.trans h.scheme, h'.value.trans h.value, h'.pos⟩

theorem setOut (h : MovedTo pos ctx ctx') (out : σ) :
    MovedTo pos ctx { ctx' with out := out } := ⟨h.beg, h.scheme, h.value, h.pos⟩

theorem setPos (h : MovedTo pos ctx ctx') (pos' : List Char) :
    MovedTo pos' ctx { ctx' with pos := pos' } := ⟨h.beg, h.scheme, h.value, rfl⟩

theorem setWarning (h : MovedTo pos ctx ctx') (warning : UriWarning) :
    MovedTo pos ctx (ctx'.setWarning warning) := ⟨h.beg, h.scheme, h.value, h.pos⟩

theorem of_setWarning {warning : UriWarning} (h : MovedTo pos (ctx.setWarning warning) ctx') :
    MovedTo pos ctx ctx' := ⟨h.beg, h.scheme, h.value, h.pos⟩

end MovedTo

/-! ## Operations that stay where they are -/

section Stay

variable (O : Output σ) (comp : Components) (e : ComponentEncoder σ)

theorem appendTo_movedTo (chars : List Char) :
    MovedTo e.ctx.pos e.ctx (appendTo O comp chars e).ctx := ⟨rfl, rfl, rfl, rfl⟩

theorem store_movedTo (chars : List Char) :
    MovedTo e.ctx.pos e.ctx (store O comp chars e).ctx := by
  rw [store]
  split
  · exact appendTo_movedTo O comp e chars
  · exact .refl e.ctx

theorem setValueOf_movedTo (start stop : List Char) :
    MovedTo e.ctx.pos e.ctx (setValueOf O comp start stop e).ctx := by
  rw [setValueOf]
  split
  · exact ⟨rfl, rfl, rfl, rfl⟩
  · exact .refl e.ctx

theorem setValue_movedTo : MovedTo e.ctx.pos e.ctx (setValue O comp e).ctx :=
  setValueOf_movedTo O comp e _ _

theorem startSegment_movedTo : MovedTo e.ctx.pos e.ctx (startSegment O comp e).ctx := by
  rw [startSegment]
  split
  · exact ⟨rfl, rfl, rfl, rfl⟩
  · exact .refl e.ctx

theorem endSegmentOf_movedTo (start stop : List Char) :
    MovedTo e.ctx.pos e.ctx (endSegmentOf O comp start stop e).ctx := by
  rw [endSegmentOf]
  split
  · exact ⟨rfl, rfl, rfl, rfl⟩
  · exact .refl e.ctx

theorem endSegment_movedTo : MovedTo e.ctx.pos e.ctx (endSegment O comp e).ctx :=
  endSegmentOf_movedTo O comp e _ _

theorem setValue_endSegment_movedTo :
    MovedTo e.ctx.pos e.ctx (setValue O comp (endSegment O comp e)).ctx := by
  have hend := endSegment_movedTo O comp e
  have hset := setValue_movedTo O comp (endSegment O comp e)
  rw [hend.pos] at hset
  exact hend.trans hset

theorem resetSegmentStart_movedTo :
    MovedTo e.ctx.pos e.ctx (resetSegmentStart O comp e).ctx := by
  rw [resetSegmentStart]
  split
  · exact ⟨rfl, rfl, rfl, rfl⟩
  · exact .refl e.ctx

theorem setQueryName_movedTo : MovedTo e.ctx.pos e.ctx (setQueryName O e).ctx := by
  rw [setQueryName]
  split
  · exact .refl e.ctx
  · exact ⟨rfl, rfl, rfl, rfl⟩

theorem setQueryValue_movedTo : MovedTo e.ctx.pos e.ctx (setQueryValue O e).ctx := by
  rw [setQueryValue]
  split
  · exact .refl e.ctx
  · exact ⟨rfl, rfl, rfl, rfl⟩

theorem nextQuery_movedTo : MovedTo e.ctx.pos e.ctx (nextQuery O comp e).ctx := by
  rw [nextQuery]
  split
  · split
    · exact ⟨rfl, rfl, rfl, rfl⟩
    · exact ⟨rfl, rfl, rfl, rfl⟩
  · exact ⟨rfl, rfl, rfl, rfl⟩

end Stay

/-! ## Operations that move -/

section Move

variable {O : Output σ} {comp : Components} {e : ComponentEncoder σ} {count : ℕ}

theorem advance_of_le {pos : List Char} (h : count ≤ pos.length) :
    advance pos count = .ok (pos.drop count) := if_pos h

theorem ignoreCharacter_safe (h : count ≤ e.ctx.pos.length) :
    Safe (fun e' => MovedTo (e.ctx.pos.drop count) e.ctx e'.ctx)
      (ignoreCharacter e count) := by
  rw [ignoreCharacter, advance_of_le h]
  exact (MovedTo.refl e.ctx).setPos _

theorem skipSeparator_safe (h : count ≤ e.ctx.pos.length) :
    Safe (fun e' => MovedTo (e.ctx.pos.drop count) e.ctx e'.ctx)
      (skipSeparator O comp e count) := by
  rw [skipSeparator, advance_of_le h, ok_bind]
  split
  · exact (appendTo_movedTo O comp e _).setPos _
  · exact (MovedTo.refl e.ctx).setPos _

theorem appendInplaceOf_safe (c : Char) (h : e.ctx.pos ≠ []) :
    Safe (fun e' => MovedTo e.ctx.pos.tail e.ctx e'.ctx) (appendInplaceOf O comp c e) := by
  have hstore := store_movedTo O comp e [c]
  have hone : 1 ≤ (store O comp [c] e).ctx.pos.length := by
    rw [hstore.pos]
    exact List.length_pos_of_ne_nil h
  refine (ignoreCharacter_safe hone).mono fun e' he' => ?_
  rw [hstore.pos, List.drop_one] at he'
  exact hstore.trans he'

theorem nextSegment_safe (h : count ≤ e.ctx.pos.length) :
    Safe (fun e' => MovedTo (e.ctx.pos.drop count) e.ctx e'.ctx)
      (nextSegment O comp e count) := by
  have hend := endSegment_movedTo O comp e
  rw [nextSegment]
  split
  · split
    · refine (skipSeparator_safe h).bind fun e' he' => ?_
      have hreset := resetSegmentStart_movedTo O comp e'
      have hstart := startSegment_movedTo O comp (resetSegmentStart O comp e')
      rw [hreset.pos, he'.pos] at hstart
      exact (he'.trans hreset).trans hstart
    · have h' : count ≤ (endSegment O comp e).ctx.pos.length := by
        rw [hend.pos]
        exact h
      refine (skipSeparator_safe h').bind fun e' he' => ?_
      have hreset := resetSegmentStart_movedTo O comp e'
      rw [hend.pos] at he'
      rw [he'.pos] at hreset
      exact (hend.trans he').trans hreset
  · refine (skipSeparator_safe h).bind fun e' he' => ?_
    have hend' := endSegment_movedTo O comp e'
    have hreset := resetSegmentStart_movedTo O comp (endSegment O comp e')
    rw [hend'.pos, he'.pos] at hreset
    exact (he'.trans hend').trans hreset

theorem nextSegmentOf_safe (separator : Char) (h : count ≤ e.ctx.pos.length) :
    Safe (fun e' => MovedTo (e.ctx.pos.drop count) e.ctx e'.ctx)
      (nextSegmentOf O comp separator e count) := by
  rw [nextSegmentOf]
  split
  · have happ := appendTo_movedTo O comp e [separator]
    refine (ignoreCharacter_safe (e := appendTo O comp [separator] e) h).bind fun e' he' => ?_
    have hend' := endSegment_movedTo O comp e'
    have hreset := resetSegmentStart_movedTo O comp (endSegment O comp e')
    rw [hend'.pos, he'.pos] at hreset
    exact ((happ.trans he').trans hend').trans hreset
  · exact nextSegment_safe h

section Cons

variable {c : Char} {rest : List Char} (h : e.ctx.pos = c :: rest)
include h

theorem length_pos_of_cons : 1 ≤ e.ctx.pos.length := by
  rw [h]
  exact Nat.succ_le_succ (Nat.zero_le _)

theorem ignoreCharacter_cons :
    Safe (fun e' => MovedTo rest e.ctx e'.ctx) (ignoreCharacter e) := by
  refine (ignoreCharacter_safe (length_pos_of_cons h)).mono fun e' he' => ?_
  rwa [h] at he'

theorem skipSeparator_cons :
    Safe (fun e' => MovedTo rest e.ctx e'.ctx) (skipSeparator O comp e) := by
  refine (skipSeparator_safe (length_pos_of_cons h)).mono fun e' he' => ?_
  rwa [h] at he'

theorem nextSegment_cons :
    Safe (fun e' => MovedTo rest e.ctx e'.ctx) (nextSegment O comp e) := by
  refine (nextSegment_safe (length_pos_of_cons h)).mono fun e' he' => ?_
  rwa [h] at he'

theorem nextSegmentOf_cons (separator : Char) :
    Safe (fun e' => MovedTo rest e.ctx e'.ctx) (nextSegmentOf O comp separator e) := by
  refine (nextSegmentOf_safe separator (length_pos_of_cons h)).mono fun e' he' => ?_
  rwa [h] at he'

theorem appendInplaceOf_cons (d : Char) :
    Safe (fun e' => MovedTo rest e.ctx e'.ctx) (appendInplaceOf O comp d e) := by
  have hne : e.ctx.pos ≠ [] := by
    rw [h]
    exact List.cons_ne_nil _ _
  refine (appendInplaceOf_safe d hne).mono fun e' he' => ?_
  rwa [h] at he'

theorem appendQueryValue_cons (hmap : isMap O comp = true) :
    Safe (fun e' => MovedTo rest e.ctx e'.ctx) (appendQueryValue O comp e) := by
  rw [appendQueryValue, if_pos hmap, h]
  simp only [deref_cons, ok_bind, advance_one_cons]
  split
  · exact ⟨rfl, rfl, rfl, rfl⟩
  · exact ⟨rfl, rfl, rfl, rfl⟩

end Cons

end Move

/-! ## Searching and escapes -/

theorem findFirstIn_suffix (s : AsciiBitmap) (pos : List Char) :
    s.findFirstIn pos <:+ pos := by
  obtain ⟨run, hpos, -⟩ := s.findFirstIn_spec pos
  exact ⟨run, hpos.symm⟩

theorem contains_of_findFirstIn {s : AsciiBitmap} {pos : List Char} {c : Char}
    (h : s.findFirstIn pos = c :: rest) : s.contains c = true := by
  obtain ⟨run, -, -, hstop⟩ := s.findFirstIn_spec pos
  exact hstop c rest h

theorem encodeOrValidate_movedTo (O : Output σ) (comp : Components)
    (policyChars invalidChars : AsciiBitmap) (e : ComponentEncoder σ) :
    MovedTo (invalidChars.findFirstIn e.ctx.pos) e.ctx
        (encodeOrValidate O comp policyChars invalidChars e).2.ctx ∧
      (encodeOrValidate O comp policyChars invalidChars e).1 =
        (invalidChars.findFirstIn e.ctx.pos).isEmpty := by
  rw [encodeOrValidate]
  split
  · rw [← encodeUriComponent_snd policyChars]
    exact ⟨(appendTo_movedTo O comp e _).setPos _, rfl⟩
  · exact ⟨(MovedTo.refl e.ctx).setPos _, rfl⟩

theorem encodeOrValidateMap_movedTo (O : Output σ) (comp : Components)
    (policyChars invalidChars : AsciiBitmap) (inValue : Bool) (e : ComponentEncoder σ) :
    MovedTo (invalidChars.findFirstIn e.ctx.pos) e.ctx
        (encodeOrValidateMap O comp policyChars invalidChars inValue e).2.ctx ∧
      (encodeOrValidateMap O comp policyChars invalidChars inValue e).1 =
        (invalidChars.findFirstIn e.ctx.pos).isEmpty := by
  rw [encodeOrValidateMap]
  split
  · rw [← encodeUriComponent_snd policyChars]
    exact ⟨⟨rfl, rfl, rfl, rfl⟩, rfl⟩
  · exact encodeOrValidate_movedTo O comp policyChars invalidChars e

/-- `validate_percent_encode` of a text whose escape breaks off behind one digit reads past
the end, unless it looks for tabs and newlines. -/
def EscapeInside (checkNewlinesAndTabs : Bool) (pos : List Char) : Prop :=
  checkNewlinesAndTabs = true ∨ ∀ d, pos = ['%', d] → isHexDigit d = false

theorem percentDigits_suffix (pos : List Char) (count : ℕ) :
    (percentDigits pos count).2.1 <:+ pos := by
  induction pos generalizing count with
  | nil => exact List.suffix_refl _
  | cons c pos ih =>
      rw [percentDigits]
      split
      · split
        · exact List.nil_suffix
        · exact (ih count).trans (List.suffix_cons ..)
      · split
        · split
          · exact List.suffix_cons ..
          · exact (ih (count + 1)).trans (List.suffix_cons ..)
        · exact List.suffix_cons ..

theorem percentEscape_safe {pos : List Char} (h : EscapeInside check ('%' :: pos)) :
    Safe (fun r => r.2.1 <:+ pos) (percentEscape check ('%' :: pos)) := by
  cases check with
  | true => exact percentDigits_suffix pos 0
  | false =>
      cases pos with
      | nil => exact List.suffix_refl _
      | cons d pos =>
          cases hd : isHexDigit d with
          | true =>
              cases pos with
              | nil =>
                  have hd' := h.resolve_left Bool.false_ne_true d rfl
                  exact absurd hd (by rw [hd']; exact Bool.false_ne_true)
              | cons d' pos =>
                  simp only [percentEscape, hd]
                  exact List.suffix_cons ..
          | false =>
              simp only [percentEscape, hd]
              exact List.suffix_cons ..

theorem validatePercentEncode_sat {O : Output σ} {comp : Components}
    {P : List Char × List Char × Bool → Prop} (h : Safe P (percentEscape check e.ctx.pos)) :
    Safe (fun r => ∃ p, P p ∧ r.1 = p.2.2 ∧ MovedTo p.2.1 e.ctx r.2.ctx)
      (validatePercentEncode O comp check e) := by
  rw [validatePercentEncode]
  refine Sat.bind h fun p hp => ?_
  exact ⟨p, hp, rfl, (store_movedTo O comp e p.1).setPos _⟩

theorem validatePercentEncode_safe {O : Output σ} {comp : Components}
    {pos : List Char} (hpos : e.ctx.pos = '%' :: pos) (h : EscapeInside check ('%' :: pos)) :
    Safe (fun r => ∃ pos', pos' <:+ pos ∧ MovedTo pos' e.ctx r.2.ctx)
      (validatePercentEncode O comp check e) := by
  have hescape := percentEscape_safe h
  rw [← hpos] at hescape
  refine (validatePercentEncode_sat hescape).mono fun r hr => ?_
  obtain ⟨p, hp, -, hmoved⟩ := hr
  exact ⟨p.2.1, hp, hmoved⟩

/-! ## Parsers -/

/-- The order in which the statuses follow each other; 0 ends the parsing. -/
def UriStatus.rank : UriStatus → ℕ
  | validPathOrAuthority => 8
  | unparsed => 7
  | validAuthority | validFileHost => 6
  | validPort => 5
  | validAuthorityEnd => 4
  | validPath | validOpaquePath => 3
  | validQueries => 2
  | validFragment => 1
  | _ => 0

/-- The context `ctx'` is ahead of `ctx`, with the same status. -/
def Ahead (ctx ctx' : Ctx σ) : Prop := ∃ pos, pos <:+ ctx.pos ∧ MovedTo pos ctx ctx'

theorem Ahead.refl (ctx : Ctx σ) : Ahead ctx ctx := ⟨_, List.suffix_refl _, .refl ctx⟩

theorem Ahead.trans (h : Ahead ctx ctx') (h' : Ahead ctx' ctx'') :
    Ahead ctx ctx'' := by
  obtain ⟨pos, hpos, hmoved⟩ := h
  obtain ⟨pos', hpos', hmoved'⟩ := h'
  rw [hmoved.pos] at hpos'
  exact ⟨pos', hpos'.trans hpos, hmoved.trans hmoved'⟩

theorem Ahead.pos (h : Ahead ctx ctx') : ctx'.pos <:+ ctx.pos := by
  obtain ⟨pos, hpos, hmoved⟩ := h
  rw [hmoved.pos]
  exact hpos

theorem Ahead.value (h : Ahead ctx ctx') :
    ctx'.status.value = ctx.status.value := by
  obtain ⟨pos, hpos, hmoved⟩ := h
  exact hmoved.value

theorem Ahead.beg (h : Ahead ctx ctx') : ctx'.beg = ctx.beg := by
  obtain ⟨pos, hpos, hmoved⟩ := h
  exact hmoved.beg

theorem Ahead.moved {pos : List Char} (h : Ahead ctx ctx')
    (hpos : pos <:+ ctx'.pos) (h' : MovedTo pos ctx' ctx'') : Ahead ctx ctx'' :=
  h.trans ⟨pos, hpos, h'⟩

theorem Ahead.setWarning (h : Ahead ctx ctx') (warning : UriWarning) :
    Ahead ctx (ctx'.setWarning warning) :=
  h.moved (List.suffix_refl _) ((MovedTo.refl ctx').setWarning warning)

theorem Ahead.escape {c : Char} (h : Ahead ctx ctx')
    (hpos : ctx'.pos = c :: rest) (hescape : ∃ pos, pos <:+ rest ∧ MovedTo pos ctx' ctx'') :
    Ahead ctx ctx'' ∧ ctx''.pos.length < ctx'.pos.length := by
  obtain ⟨pos, hsuffix, hmoved⟩ := hescape
  refine ⟨h.moved ?_ hmoved, ?_⟩
  · rw [hpos]
    exact hsuffix.trans (List.suffix_cons ..)
  · rw [hmoved.pos, hpos]
    exact Nat.lt_succ_of_le hsuffix.length_le

theorem Ahead.passed {c : Char} (h : Ahead ctx ctx')
    (hpos : ctx'.pos = c :: rest) (hmoved : MovedTo rest ctx' ctx'') :
    Ahead ctx ctx'' ∧ ctx''.pos.length < ctx'.pos.length :=
  h.escape hpos ⟨rest, List.suffix_refl _, hmoved⟩

theorem stop_safe {α : Type} {P : α → Prop} {s : AsciiBitmap} {start : Ctx σ}
    {r : Bool × ComponentEncoder σ} {atEnd : Run α} {atStop : Char → Run α} (h : Ahead start e.ctx)
    (hr : MovedTo (s.findFirstIn e.ctx.pos) e.ctx r.2.ctx ∧
      r.1 = (s.findFirstIn e.ctx.pos).isEmpty)
    (hend : Ahead start r.2.ctx → Safe P atEnd)
    (hstop : ∀ c rest, Ahead start r.2.ctx → r.2.ctx.pos = c :: rest →
      s.findFirstIn e.ctx.pos = c :: rest → r.2.ctx.pos <:+ e.ctx.pos → Safe P (atStop c)) :
    Safe P (if r.1 = true then atEnd else do
      let c ← deref r.2.ctx.pos
      atStop c) := by
  have hsuffix := findFirstIn_suffix s e.ctx.pos
  have hahead := h.moved hsuffix hr.1
  obtain ⟨hmoved, hempty⟩ := hr
  cases hpos : s.findFirstIn e.ctx.pos with
  | nil =>
      rw [hpos] at hempty
      rw [hempty, List.isEmpty_nil, if_pos rfl]
      exact hend hahead
  | cons c rest =>
      rw [hpos] at hempty
      rw [← hmoved.pos] at hsuffix
      have hcons := hmoved.pos.trans hpos
      rw [hempty, List.isEmpty_cons, if_neg Bool.false_ne_true, hcons, deref_cons, ok_bind]
      exact hstop c rest hahead hcons hpos hsuffix

/-- What a parser leaves: a status of a lower rank than `bound`, or the same status at a
later position. -/
structure Proceeds (bound : ℕ) (ctx ctx' : Ctx σ) : Prop where
  beg : ctx'.beg = ctx.beg
  pos : ctx'.pos <:+ ctx.beg
  next : ctx'.status.value.rank < bound ∨
    ctx'.status.value = ctx.status.value ∧ ctx'.pos <:+ ctx.pos ∧
      ctx'.pos.length < ctx.pos.length

namespace Proceeds

variable {bound : ℕ} {ctx ctx' : Ctx σ}

theorem lower (hbeg : ctx'.beg = ctx.beg) (hpos : ctx'.pos <:+ ctx.beg)
    (hstatus : ctx'.status.value.rank < bound) : Proceeds bound ctx ctx' :=
  ⟨hbeg, hpos, .inl hstatus⟩

end Proceeds

section Leaving

variable {bound : ℕ} {ctx ctx' ctx'' : Ctx σ}

theorem Ahead.proceeds (h : Ahead ctx ctx') (hpos : ctx.pos <:+ ctx.beg) (status : Status)
    (hstatus : status.value.rank < bound) :
    Proceeds bound ctx { ctx' with status := status } :=
  .lower h.beg (h.pos.trans hpos) hstatus

/-- The context `ctx'` is ahead of `ctx`, with its status or one of a rank below `bound`. -/
structure Leaves (bound : ℕ) (ctx ctx' : Ctx σ) : Prop where
  beg : ctx'.beg = ctx.beg
  pos : ctx'.pos <:+ ctx.pos
  value : ctx'.status.value = ctx.status.value ∨ ctx'.status.value.rank < bound

theorem Ahead.leaves (h : Ahead ctx ctx') : Leaves bound ctx ctx' := ⟨h.beg, h.pos, .inl h.value⟩

theorem Ahead.leaves_valid (h : Ahead ctx ctx') {value : UriStatus}
    (hvalue : value.rank < bound) : Leaves bound ctx (ctx'.setValid value) :=
  ⟨h.beg, h.pos, .inr hvalue⟩

namespace Leaves

variable (h : Leaves bound ctx ctx') {pos : List Char} (hmoved : MovedTo pos ctx' ctx'')
include h hmoved

theorem moved (hsuffix : pos <:+ ctx'.pos) : Leaves bound ctx ctx'' := by
  refine ⟨hmoved.beg.trans h.beg, ?_, ?_⟩
  · rw [hmoved.pos]
    exact hsuffix.trans h.pos
  · rw [hmoved.value]
    exact h.value

theorem proceeds (hpos : ctx.pos <:+ ctx.beg) (hsuffix : pos <:+ ctx'.pos)
    (hlt : pos.length < ctx'.pos.length) : Proceeds bound ctx ctx'' := by
  obtain ⟨hbeg, hpos', hvalue⟩ := h.moved hmoved hsuffix
  refine ⟨hbeg, hpos'.trans hpos, ?_⟩
  rcases hvalue with hvalue | hvalue
  · refine .inr ⟨hvalue, hpos', ?_⟩
    rw [hmoved.pos]
    exact Nat.lt_of_lt_of_le hlt h.pos.length_le
  · exact .inl hvalue

end Leaves

theorem Leaves.lower (h : Leaves bound ctx ctx') (hpos : ctx.pos <:+ ctx.beg) (status : Status)
    (hstatus : status.value.rank < bound) :
    Proceeds bound ctx { ctx' with status := status } :=
  .lower h.beg (h.pos.trans hpos) hstatus

theorem Leaves.proceeds_valid (h : Leaves bound ctx ctx') (hpos : ctx.pos <:+ ctx.beg)
    {value : UriStatus} (hvalue : value.rank < bound) {pos : List Char}
    (hsuffix : pos <:+ ctx'.pos) (hmoved : MovedTo pos (ctx'.setValid value) ctx'') :
    Proceeds bound ctx ctx'' := by
  refine .lower (hmoved.beg.trans h.beg) ?_ ?_
  · rw [hmoved.pos]
    exact (hsuffix.trans h.pos).trans hpos
  · rw [hmoved.value]
    exact hvalue

/-- The context `ctx'` is ahead of `ctx`, with a status of a rank below `bound`. -/
structure Lowers (bound : ℕ) (ctx ctx' : Ctx σ) : Prop where
  beg : ctx'.beg = ctx.beg
  pos : ctx'.pos <:+ ctx.pos
  rank : ctx'.status.value.rank < bound

theorem Lowers.moved (h : Lowers bound ctx ctx') {pos : List Char} (hmoved : MovedTo pos ctx' ctx'')
    (hsuffix : pos <:+ ctx'.pos) : Lowers bound ctx ctx'' := by
  refine ⟨hmoved.beg.trans h.beg, ?_, ?_⟩
  · rw [hmoved.pos]
    exact hsuffix.trans h.pos
  · rw [hmoved.value]
    exact h.rank

theorem Leaves.lowers (h : Leaves bound ctx ctx') (h' : Lowers bound ctx' ctx'') :
    Lowers bound ctx ctx'' :=
  ⟨h'.beg.trans h.beg, h'.pos.trans h.pos, h'.rank⟩

theorem Lowers.proceeds (h : Lowers bound ctx ctx') (hpos : ctx.pos <:+ ctx.beg) :
    Proceeds bound ctx ctx' :=
  .lower h.beg (h.pos.trans hpos) h.rank

theorem tail_length_lt {pos : List Char} (h : pos ≠ []) : pos.tail.length < pos.length := by
  rw [List.length_tail]
  exact Nat.sub_lt (List.length_pos_of_ne_nil h) Nat.one_pos

end Leaving

end Webpp.Uri
