import Webpp.Text.CharConv
import Webpp.Uri.HostFrameRounds

/-!
# The rounds over user and password

Before an `@` turns up `parse_authority_pieces` takes the user for a host, and the password for
a port. A text of unreserved characters is passed over in rounds that end at its dots, and all
that they write is in the host, which is cleared at the `@`.
-/

namespace Webpp.Uri

open ComponentEncoder Loop Webpp.Text

variable {σ : Type}

/-- `unreserved`: letters, digits and four signs. -/
def isUnreserved (c : Char) : Bool := alphaDigit.contains c || ['-', '.', '_', '~'].contains c

def IsUnreservedText (text : List Char) : Prop := ∀ c ∈ text, isUnreserved c = true

/-- Clearing the host forgets what was written into it. -/
structure ClearsHost (O : Output σ) : Prop where
  setValue : ∀ start stop out, O.clear .host (O.setValue .host start stop out) = O.clear .host out
  append : ∀ chars out, O.clear .host (O.append .host chars out) = O.clear .host out
  editSegments : ∀ g out, O.clear .host (O.editSegments .host g out) = O.clear .host out
  port : ∀ out, O.clear .host (O.clear .port out) = O.clear .port (O.clear .host out)

/-- The context has moved to `pos`, and only the host was written. -/
structure MovedInHost (O : Output σ) (pos : List Char) (ctx ctx' : Ctx σ) : Prop where
  moved : MovedTo pos ctx ctx'
  out : O.clear .host ctx'.out = O.clear .host ctx.out

section Text

variable {O : Output σ} {text rest : List Char} {c x : Char}

theorem isUnreserved_lt (h : isUnreserved c = true) : c.toNat < 128 := by
  rw [isUnreserved, Bool.or_eq_true] at h
  rcases h with h | h
  · exact of_decide_eq_true ((Bool.and_eq_true _ _).mp h).1
  · have hall : ∀ c ∈ ['-', '.', '_', '~'], c.toNat < 128 := by decide
    exact hall c (List.contains_iff_mem.mp h)

theorem isUnreserved_ne (h : isUnreserved c = true) (hx : isUnreserved x = false) : c ≠ x := by
  rintro rfl
  rw [hx] at h
  cases h

theorem eq_dot_of_forbidden (h : isUnreserved c = true) (hc : forbiddenDomains.contains c = true) :
    c = '.' :=
  forall_ascii (P := fun c => isUnreserved c = true → forbiddenDomains.contains c = true →
    c = '.') (by decide) (isUnreserved_lt h) h hc

/-- Where the search stops, apart from the letters that are lowered. -/
def Stops (O : Output σ) (c : Char) : Prop :=
  (authorityInteresting O true).contains c = true ∧ (O.isModifiable = true → upperAlpha c = false)

theorem Stops.eq_dot (h : Stops O c) (hc : isUnreserved c = true) : c = '.' := by
  obtain ⟨hcontains, hupper⟩ := h
  rw [authorityInteresting, if_neg (by decide)] at hcontains
  split at hcontains
  · rename_i hmodifiable
    rw [AsciiBitmap.contains_union, Bool.or_eq_true] at hcontains
    refine eq_dot_of_forbidden hc (hcontains.resolve_right fun hletter => ?_)
    have hcapital := ((Bool.and_eq_true _ _).mp hletter).2
    rw [hupper hmodifiable] at hcapital
    cases hcapital
  · exact eq_dot_of_forbidden hc hcontains

theorem stops_of_forbidden (hc : forbiddenDomains.contains c = true)
    (hupper : upperAlpha c = false) : Stops O c := by
  refine ⟨?_, fun _ => hupper⟩
  rw [authorityInteresting, if_neg (by decide)]
  split
  · rw [AsciiBitmap.contains_union, hc, Bool.true_or]
  · exact hc

/-- The decoding of a text without escapes. -/
theorem decodeUriComponent_unreserved (rest : List Char) {chars : AsciiBitmap}
    (htext : IsUnreservedText text) (hx : chars.contains x = true) (hpercent : x ≠ '%') :
    ∃ run text', text = run ++ text' ∧
      decodeUriComponent chars (text ++ x :: rest) = (run, text' ++ x :: rest, false) ∧
      ∀ c, text'.head? = some c → chars.contains c = true := by
  induction text with
  | nil =>
      refine ⟨[], [], rfl, ?_, by rintro c ⟨⟩⟩
      rw [List.nil_append, decodeUriComponent_cons hpercent, if_pos hx]
  | cons c text ih =>
      obtain ⟨hc, htail⟩ := List.forall_mem_cons.mp htext
      have hne : c ≠ '%' := isUnreserved_ne hc (by decide)
      rw [List.cons_append, decodeUriComponent_cons hne]
      by_cases hstop : chars.contains c = true
      · refine ⟨[], c :: text, rfl, if_pos hstop, ?_⟩
        rintro d ⟨⟩
        exact hstop
      · obtain ⟨run, text', rfl, hdecode, hhead⟩ := ih htail
        refine ⟨c :: run, text', rfl, ?_, hhead⟩
        rw [if_neg hstop, hdecode]

theorem findFirstIn_unreserved {chars : AsciiBitmap} (hx : chars.contains x = true)
    (text rest : List Char) :
    ∃ text', text' <:+ text ∧ chars.findFirstIn (text ++ x :: rest) = text' ++ x :: rest ∧
      ∀ c, text'.head? = some c → chars.contains c = true := by
  induction text with
  | nil =>
      refine ⟨[], List.suffix_refl _, ?_, by rintro c ⟨⟩⟩
      rw [List.nil_append, AsciiBitmap.findFirstIn, if_pos hx]
  | cons c text ih =>
      rw [List.cons_append, AsciiBitmap.findFirstIn]
      by_cases hstop : chars.contains c = true
      · refine ⟨c :: text, List.suffix_refl _, if_pos hstop, ?_⟩
        rintro d ⟨⟩
        exact hstop
      · obtain ⟨text', hsuffix, hfind, hhead⟩ := ih
        exact ⟨text', hsuffix.trans (List.suffix_cons ..), by rw [if_neg hstop, hfind], hhead⟩

/-- The loop of `decode_or_tolower` ends at the next stop. -/
theorem tolowerLoop_text (rest : List Char) (hmodifiable : O.isModifiable = true) (hx : Stops O x)
    (hpercent : x ≠ '%') (written : List Char) (htext : IsUnreservedText text) :
    ∃ written' text', text' <:+ text ∧ (∀ c, text'.head? = some c → Stops O c) ∧
      EndsWith (tolowerStep (authorityInteresting O true)) .diverges (fun s => s.2.length)
        (written, text ++ x :: rest) (.ok (written', text' ++ x :: rest, false)) := by
  induction hlength : text.length using Nat.strong_induction_on generalizing text written with
  | _ n ih =>
      obtain ⟨run, text', rfl, hdecode, hhead⟩ :=
        decodeUriComponent_unreserved rest htext hx.1 hpercent
      have hne : run ++ text' ++ x :: rest ≠ [] :=
        List.append_ne_nil_of_right_ne_nil _ (List.cons_ne_nil x rest)
      have hstep : tolowerStep (authorityInteresting O true) (written, run ++ text' ++ x :: rest) =
          (deref (text' ++ x :: rest) >>= fun c =>
            if upperAlpha c then
              pure (.next (written ++ run ++ [toLowerCopy c], (text' ++ x :: rest).tail))
            else pure (.done (written ++ run, text' ++ x :: rest, false))) := by
        rw [tolowerStep]
        dsimp only
        rw [if_neg hne, hdecode]
        rfl
      cases text' with
      | nil =>
          refine ⟨written ++ run, [], List.nil_suffix, by rintro c ⟨⟩, ?_⟩
          refine endsWith_of_done ?_
          rw [hstep, List.nil_append, deref_cons, ok_bind, if_neg]
          · rfl
          · rw [hx.2 hmodifiable]
            decide
      | cons c text' =>
          rw [List.cons_append, deref_cons, ok_bind] at hstep
          by_cases hupper : upperAlpha c = true
          · rw [if_pos hupper] at hstep
            have htail : IsUnreservedText text' := fun d hd =>
              htext d (List.mem_append_right _ (List.mem_cons_of_mem c hd))
            have hshorter : text'.length < n := by
              rw [← hlength, List.length_append, List.length_cons]
              omega
            obtain ⟨written', text'', hsuffix, hstops, hends⟩ :=
              ih text'.length hshorter (written ++ run ++ [toLowerCopy c]) htail rfl
            refine ⟨written', text'', ?_, hstops, ?_⟩
            · exact hsuffix.trans ((List.suffix_cons c text').trans (List.suffix_append _ _))
            · refine (leadsTo_of_next hstep ?_).ends hends
              simp only [List.tail_cons, List.length_append, List.length_cons]
              omega
          · rw [if_neg hupper] at hstep
            refine ⟨written ++ run, c :: text', List.suffix_append _ _, ?_, ?_⟩
            · rintro d ⟨⟩
              exact ⟨hhead c rfl, fun _ => Bool.eq_false_iff.mpr hupper⟩
            · exact endsWith_of_done hstep

theorem decodeOrTolower_text (hO : ClearsHost O) {e : ComponentEncoder σ}
    (hpos : e.ctx.pos = text ++ x :: rest) (htext : IsUnreservedText text) (hx : Stops O x)
    (hpercent : x ≠ '%') :
    ∃ e' text', decodeOrTolower O .host (authorityInteresting O true) e = .ok (false, e') ∧
      text' <:+ text ∧ (∀ c, text'.head? = some c → Stops O c) ∧
      MovedInHost O (text' ++ x :: rest) e.ctx e'.ctx := by
  rw [decodeOrTolower]
  by_cases hmodifiable : O.isModifiable = true
  · obtain ⟨written, text', hsuffix, hstops, hends⟩ :=
      tolowerLoop_text rest hmodifiable hx hpercent [] htext
    rw [if_pos hmodifiable, hpos, hends _ (Nat.lt_succ_self _)]
    exact ⟨_, text', rfl, hsuffix, hstops, (appendTo_movedTo O .host e written).setPos _,
      hO.append _ _⟩
  · obtain ⟨text', hsuffix, hfind, hhead⟩ := findFirstIn_unreserved hx.1 text rest
    rw [if_neg hmodifiable, hpos, hfind]
    refine ⟨e.setPos (text' ++ x :: rest), text', ?_, hsuffix, fun c hc => ?_,
      (MovedTo.refl e.ctx).setPos _, rfl⟩
    · cases text' with
      | nil => rfl
      | cons c text' => rfl
    · exact ⟨hhead c hc, fun h => absurd h hmodifiable⟩

end Text

/-! ## The dots -/

section Dots

variable {O : Output σ} {pos rest : List Char} {e : ComponentEncoder σ} {ctx ctx' ctx'' : Ctx σ}

theorem MovedInHost.trans {pos' : List Char} (h : MovedInHost O pos ctx ctx')
    (h' : MovedInHost O pos' ctx' ctx'') : MovedInHost O pos' ctx ctx'' :=
  ⟨h.moved.trans h'.moved, h'.out.trans h.out⟩

theorem startSegment_movedInHost (hO : ClearsHost O) (e : ComponentEncoder σ) :
    MovedInHost O e.ctx.pos e.ctx (startSegment O .host e).ctx := by
  refine ⟨startSegment_movedTo O .host e, ?_⟩
  rw [startSegment]
  split
  · exact hO.editSegments _ _
  · rfl

theorem endSegment_movedInHost (hO : ClearsHost O) (e : ComponentEncoder σ) :
    MovedInHost O e.ctx.pos e.ctx (endSegment O .host e).ctx := by
  refine ⟨endSegment_movedTo O .host e, ?_⟩
  rw [endSegment, endSegmentOf]
  split
  · exact hO.editSegments _ _
  · rfl

theorem resetSegmentStart_movedInHost (e : ComponentEncoder σ) :
    MovedInHost O e.ctx.pos e.ctx (resetSegmentStart O .host e).ctx := by
  refine ⟨resetSegmentStart_movedTo O .host e, ?_⟩
  rw [resetSegmentStart]
  split <;> rfl

theorem skipSeparator_text (hO : ClearsHost O) {c : Char} (hpos : e.ctx.pos = c :: pos) :
    ∃ e', skipSeparator O .host e = .ok e' ∧ MovedInHost O pos e.ctx e'.ctx := by
  rw [skipSeparator, hpos, advance_one_cons, ok_bind]
  refine ⟨_, rfl, ?_, ?_⟩
  · split
    · exact (appendTo_movedTo O .host e _).setPos pos
    · exact (MovedTo.refl e.ctx).setPos pos
  · split
    · exact hO.append _ _
    · rfl

theorem nextSegment_text (hO : ClearsHost O) {c : Char} (hpos : e.ctx.pos = c :: pos) :
    ∃ e', nextSegment O .host e = .ok e' ∧ MovedInHost O pos e.ctx e'.ctx := by
  have hstays {e' : ComponentEncoder σ} (h : MovedInHost O pos e.ctx e'.ctx)
      {e'' : ComponentEncoder σ} (h' : MovedInHost O e'.ctx.pos e'.ctx e''.ctx) :
      MovedInHost O pos e.ctx e''.ctx := by
    rw [h.moved.pos] at h'
    exact h.trans h'
  rw [nextSegment]
  split
  · split
    · obtain ⟨e', hskip, he'⟩ := skipSeparator_text hO hpos
      rw [hskip, ok_bind]
      exact ⟨_, rfl, hstays (hstays he' (resetSegmentStart_movedInHost e'))
        (startSegment_movedInHost hO _)⟩
    · have hend := endSegment_movedInHost hO e
      obtain ⟨e', hskip, he'⟩ := skipSeparator_text hO (hend.moved.pos.trans hpos)
      rw [hskip, ok_bind]
      exact ⟨_, rfl, hstays (hend.trans he') (resetSegmentStart_movedInHost e')⟩
  · obtain ⟨e', hskip, he'⟩ := skipSeparator_text hO hpos
    rw [hskip, ok_bind]
    exact ⟨_, rfl, hstays (hstays he' (endSegment_movedInHost hO e'))
      (resetSegmentStart_movedInHost _)⟩

end Dots

/-! ## The rounds -/

section Rounds

variable {o : Options} {O : Output σ} {text rest : List Char} {x : Char}

/-- What is left to be read. -/
def AuthorityState.left (s : AuthorityState σ) : ℕ := s.coder.ctx.pos.length

/-- The loop comes to the round that finds `x` behind the text; before, only the host is
written. -/
theorem rounds_over_text (authorityBegin : List Char) (hO : ClearsHost O) (hx : Stops O x)
    (hpercent : x ≠ '%') (htext : IsUnreservedText text) {s : AuthorityState σ}
    (hpos : s.coder.ctx.pos = text ++ x :: rest) :
    ∃ t e, LeadsTo (authorityStep o O true authorityBegin) .diverges AuthorityState.left s t ∧
      rest.length < t.left ∧
      authorityStep o O true authorityBegin t =
        authoritySwitch o O true authorityBegin (s.setCoder e) x ∧
      MovedInHost O (x :: rest) s.coder.ctx e.ctx := by
  induction hlength : text.length using Nat.strong_induction_on generalizing text s with
  | _ n ih =>
      obtain ⟨e, text', hsearch, hsuffix, hstops, he⟩ :=
        decodeOrTolower_text hO hpos htext hx hpercent
      have hstep : authorityStep o O true authorityBegin s =
          (deref e.ctx.pos >>= authoritySwitch o O true authorityBegin (s.setCoder e)) := by
        rw [authorityStep_eq]
        show decodeOrTolower O .host (authorityInteresting O true) s.coder >>= _ = _
        rw [hsearch, ok_bind]
        rfl
      cases text' with
      | nil =>
          rw [List.nil_append] at he
          refine ⟨s, e, .refl s, ?_, ?_, he⟩
          · rw [AuthorityState.left, hpos, List.length_append, List.length_cons]
            omega
          · rw [hstep, he.moved.pos, deref_cons, ok_bind]
      | cons c text' =>
          have htail : IsUnreservedText (c :: text') := fun d hd => htext d (hsuffix.subset hd)
          have hdot : c = '.' := (hstops c rfl).eq_dot (htail c List.mem_cons_self)
          subst hdot
          rw [List.cons_append] at he
          obtain ⟨e₁, hnext, he₁⟩ := nextSegment_text hO he.moved.pos
          have hround : authorityStep o O true authorityBegin s = .ok (.next (s.setCoder e₁)) := by
            rw [hstep, he.moved.pos, deref_cons, ok_bind]
            rw [authoritySwitch]
            dsimp only [AuthorityState.setCoder]
            rw [hnext, ok_bind]
            rfl
          have hshorter : text'.length < n := by
            have hle := hsuffix.length_le
            rw [List.length_cons, hlength] at hle
            exact hle
          obtain ⟨t, e₂, hleads, hleft, hswitch, he₂⟩ :=
            ih text'.length hshorter (fun d hd => htail d (List.mem_cons_of_mem '.' hd))
              (s := s.setCoder e₁) he₁.moved.pos rfl
          refine ⟨t, e₂, (leadsTo_of_next hround ?_).trans hleads, hleft, hswitch,
            (he.trans he₁).trans he₂⟩
          show e₁.ctx.pos.length < s.coder.ctx.pos.length
          rw [he₁.moved.pos, hpos, List.length_append, List.length_append]
          omega

end Rounds

end Webpp.Uri
