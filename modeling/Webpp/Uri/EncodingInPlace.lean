import Webpp.Foundation.Loop
import Webpp.Uri.Encoding

/-!
# Decoding in place

`decode_uri_component_inplace` on a buffer: what is decoded is written over the text, behind the
position that is read. A character that is no escape is not stored but added to what is in its
place (`*out++ += *pos`), so that the output is right only where that place holds a zero.
-/

namespace Webpp.Uri.Encoding

open Loop PercentCode

variable {stale : List UInt8} {p : Piece UInt8} {o : UInt8}

inductive BufferFault where
  | readOutside
  | writeOutside
  | diverges
  deriving DecidableEq, Repr

/-- The buffer, and the two positions in it. -/
structure Cursors where
  buf : List UInt8
  out : ℕ
  pos : ℕ
  deriving DecidableEq, Repr

namespace Cursors

def read (s : Cursors) (i : ℕ) : Except BufferFault UInt8 :=
  match s.buf[i]? with
  | some c => .ok c
  | none => .error .readOutside

/-- `*out = c`. -/
def write (s : Cursors) (c : UInt8) : Except BufferFault Cursors :=
  if s.out < s.buf.length then .ok { s with buf := s.buf.set s.out c } else .error .writeOutside

/-- `pos = out; *pos = zero_char; return false;` -/
def refuse (s : Cursors) : Except BufferFault (Flow Cursors (Cursors × Bool)) := do
  let s ← s.write 0
  return .done ({ s with pos := s.out }, false)

/-- `pos = out`, and the `\0` behind what is written where there is room. -/
def finish (s : Cursors) (fin : ℕ) : Except BufferFault (Flow Cursors (Cursors × Bool)) := do
  if s.out = fin then
    return .done ({ s with pos := s.out }, true)
  else
    let s ← s.write 0
    return .done ({ s with pos := s.out }, true)

end Cursors

section Step

variable (policy : UriEncodingPolicy) (chars : UInt8 → Bool)

/-- One round of the loop. -/
def inplaceStep (fin : ℕ) (s : Cursors) : Except BufferFault (Flow Cursors (Cursors × Bool)) := do
  if s.pos = fin then
    s.finish fin
  else
    let c ← s.read s.pos
    if c = percentSign then
      -- `pos++ >= end - 2`
      if fin ≤ s.pos + 2 then
        return .done ({ s with pos := s.pos + 1 }, false)
      else
        let c1 ← s.read (s.pos + 1)
        let c2 ← s.read (s.pos + 2)
        if decodedChar c1 c2 ≠ ones then
          let s ← s.write (toChar (decodedChar c1 c2))
          return .next { s with out := s.out + 1, pos := s.pos + 3 }
        else
          s.refuse
    else if policy.allows chars c then
      -- `*out++ += *pos`
      let old ← s.read s.out
      let s ← s.write (old + c)
      return .next { s with out := s.out + 1, pos := s.pos + 1 }
    else
      s.refuse

def decodeUriComponentInplace (buf : List UInt8) (pos fin : ℕ) :
    Except BufferFault (Cursors × Bool) :=
  loop (inplaceStep policy chars fin) .diverges (fin - pos + 1) ⟨buf, pos, pos⟩

end Step

/-! ## Places in the buffer -/

section Places

variable {s : Cursors} (before : List UInt8) (x : UInt8) (rest : List UInt8)

theorem Cursors.read_at (hbuf : s.buf = before ++ x :: rest) {i : ℕ} (hi : i = before.length) :
    s.read i = .ok x := by
  rw [read, hbuf, hi, List.getElem?_append_right le_rfl, Nat.sub_self, List.getElem?_cons_zero]

theorem Cursors.write_at (hbuf : s.buf = before ++ x :: rest) (hout : s.out = before.length)
    (c : UInt8) : s.write c = .ok { s with buf := before ++ c :: rest } := by
  have hlt : s.out < s.buf.length := by
    rw [hbuf, hout, List.length_append, List.length_cons]
    omega
  rw [write, if_pos hlt, hbuf, hout, List.set_append_right _ _ le_rfl, Nat.sub_self,
    List.set_cons_zero]

end Places

/-- `done` is written, `old` is read, and `text` is to be read. -/
structure Cursors.At (fin : ℕ) (done old text after : List UInt8) (s : Cursors) : Prop where
  buf : s.buf = done ++ (old ++ text) ++ after
  out : s.out = done.length
  pos : s.pos = done.length + old.length
  fin_eq : fin = done.length + old.length + text.length

/-- What is written in the place of `o` for a piece. -/
def placed (o : UInt8) : Piece UInt8 → UInt8
  | .plain c => o + c
  | .escape c1 c2 => (looseEscape c1 c2).getD 0
  | .cut _ => 0

/-- What is left of the buffer when the loop ends: only the place of `stale` has changed, and
the pieces are written at its start. -/
structure Ended (policy : UriEncodingPolicy) (chars : UInt8 → Bool) (done stale after : List UInt8)
    (ps : List (Piece UInt8)) (r : Cursors × Bool) : Prop where
  verdict : r.2 = (ps.mapM (readsAs policy chars)).isSome
  pos : r.2 = true → r.1.pos = done.length + ps.length
  region : ∃ region, r.1.buf = done ++ region ++ after ∧ region.length = stale.length ∧
    (r.2 = true → region.take ps.length = List.zipWith placed stale ps)

section Rounds

variable {policy : UriEncodingPolicy} {chars : UInt8 → Bool} {fin : ℕ} {s : Cursors}
  {done old text after : List UInt8}

theorem Cursors.At.not_end {c : UInt8} (h : s.At fin done old (c :: text) after) :
    s.pos ≠ fin := by
  rw [h.pos, h.fin_eq, List.length_cons]
  omega

theorem Cursors.At.read {c : UInt8} {x : List UInt8} (h : s.At fin done old (x ++ c :: text) after)
    {i : ℕ} (hi : i = s.pos + x.length) : s.read i = .ok c := by
  refine Cursors.read_at (done ++ old ++ x) c (text ++ after) ?_ ?_
  · rw [h.buf]
    simp
  · rw [hi, h.pos, List.length_append, List.length_append]

theorem refuse_ended (policy : UriEncodingPolicy) (chars : UInt8 → Bool) (o : UInt8)
    (stale : List UInt8) (ps : List (Piece UInt8)) (hbuf : s.buf = done ++ (o :: stale) ++ after)
    (hout : s.out = done.length)
    (hps : ps.mapM (readsAs policy chars) = none) :
    ∃ r, s.refuse = .ok (.done r) ∧ Ended policy chars done (o :: stale) after ps r := by
  have hwrite := Cursors.write_at done o (stale ++ after)
    (by rw [hbuf]; simp) hout 0
  refine ⟨_, by rw [Cursors.refuse, hwrite]; rfl, ?_, ?_, 0 :: stale, ?_, rfl, ?_⟩
  · rw [hps]
    rfl
  · intro h
    cases h
  · simp
  · intro h
    cases h

theorem finish_ended (policy : UriEncodingPolicy) (chars : UInt8 → Bool)
    (h : s.At fin done old [] after) :
    ∃ r, s.finish fin = .ok (.done r) ∧ Ended policy chars done old after [] r := by
  have hfin := h.fin_eq
  rw [List.length_nil, Nat.add_zero] at hfin
  cases old with
  | nil =>
      have heq : s.out = fin := by
        rw [h.out, hfin, List.length_nil, Nat.add_zero]
      refine ⟨_, by rw [Cursors.finish, if_pos heq]; rfl, rfl, ?_, [], ?_, rfl, ?_⟩
      · exact fun _ => h.out
      · rw [h.buf]
        simp
      · exact fun _ => rfl
  | cons o stale =>
      have hwrite := Cursors.write_at done o (stale ++ after)
        (by rw [h.buf]; simp) h.out 0
      have hne : s.out ≠ fin := by
        rw [h.out, hfin, List.length_cons]
        omega
      refine ⟨_, by rw [Cursors.finish, if_neg hne, hwrite]; rfl, rfl, ?_, 0 :: stale, ?_, rfl, ?_⟩
      · exact fun _ => h.out
      · simp
      · exact fun _ => rfl

theorem Ended.cons {ps : List (Piece UInt8)}
    {r : Cursors × Bool} (hp : (readsAs policy chars p).isSome)
    (h : Ended policy chars (done ++ [placed o p]) stale after ps r) :
    Ended policy chars done (o :: stale) after (p :: ps) r := by
  obtain ⟨region, hbuf, hlength, hregion⟩ := h.region
  refine ⟨?_, ?_, placed o p :: region, ?_, ?_, ?_⟩
  · obtain ⟨c, hc⟩ := Option.isSome_iff_exists.mp hp
    rw [h.verdict, List.mapM_cons, hc]
    cases ps.mapM (readsAs policy chars) with
    | none => rfl
    | some out => rfl
  · intro hr
    rw [h.pos hr, List.length_append, List.length_cons, List.length_cons, List.length_nil]
    omega
  · rw [hbuf]
    simp
  · rw [List.length_cons, List.length_cons, hlength]
  · intro hr
    rw [List.length_cons, List.take_succ_cons, hregion hr, List.zipWith_cons_cons]

/-- The character `b` has been written in the place of `o`, and `count` characters are read. -/
theorem Cursors.At.written {o b : UInt8} {count : ℕ}
    (h : s.At fin done old text after) (hcount : count + old.length = stale.length + 1)
    {text' : List UInt8} (htext : old ++ text = o :: stale ++ text') :
    Cursors.At fin (done ++ [b]) stale text' after
      ⟨done ++ b :: (stale ++ text' ++ after), s.out + 1, s.pos + count⟩ := by
  refine ⟨?_, ?_, ?_, ?_⟩
  · simp
  · rw [h.out, List.length_append, List.length_singleton]
  · rw [List.length_append, List.length_singleton]
    have hpos := h.pos
    dsimp only
    omega
  · have hlength := congrArg List.length htext
    rw [List.length_append, List.length_append, List.length_cons] at hlength
    rw [h.fin_eq, List.length_append, List.length_singleton]
    omega

theorem Cursors.At.write_eq {stale text' : List UInt8}
    (h : s.At fin done old text after) (htext : old ++ text = o :: stale ++ text') (b : UInt8) :
    s.write b = .ok { s with buf := done ++ b :: (stale ++ text' ++ after) } := by
  refine Cursors.write_at done o (stale ++ text' ++ after) ?_ h.out b
  rw [h.buf, htext]
  simp

variable {c c1 c2 : UInt8}

theorem inplaceStep_end (h : s.At fin done old [] after) :
    inplaceStep policy chars fin s = s.finish fin := by
  have hpos : s.pos = fin := by
    rw [h.pos, h.fin_eq, List.length_nil, Nat.add_zero]
  exact if_pos hpos

theorem inplaceStep_plain (h : s.At fin done old (c :: text) after) (hc : c ≠ percentSign) :
    inplaceStep policy chars fin s =
      if policy.allows chars c then do
        let o ← s.read s.out
        let s ← s.write (o + c)
        return .next { s with out := s.out + 1, pos := s.pos + 1 }
      else s.refuse := by
  have hread : s.read s.pos = pure c := h.read (x := []) rfl
  rw [inplaceStep, if_neg h.not_end, hread, pure_bind, if_neg hc]

theorem inplaceStep_escape (h : s.At fin done old (percentSign :: c1 :: c2 :: text) after) :
    inplaceStep policy chars fin s =
      if decodedChar c1 c2 ≠ ones then do
        let s ← s.write (toChar (decodedChar c1 c2))
        return .next { s with out := s.out + 1, pos := s.pos + 3 }
      else s.refuse := by
  have hread : s.read s.pos = pure percentSign := h.read (x := []) rfl
  have hread1 : s.read (s.pos + 1) = pure c1 := h.read (x := [percentSign]) rfl
  have hread2 : s.read (s.pos + 2) = pure c2 := h.read (x := [percentSign, c1]) rfl
  have hroom : ¬ fin ≤ s.pos + 2 := by
    rw [h.fin_eq, h.pos]
    simp only [List.length_cons]
    omega
  rw [inplaceStep, if_neg h.not_end, hread, pure_bind, if_pos rfl, if_neg hroom, hread1,
    pure_bind, hread2, pure_bind]

theorem inplaceStep_cut (h : s.At fin done old (percentSign :: text) after)
    (htext : text.length < 2) :
    inplaceStep policy chars fin s = .ok (.done ({ s with pos := s.pos + 1 }, false)) := by
  have hread : s.read s.pos = pure percentSign := h.read (x := []) rfl
  have hroom : fin ≤ s.pos + 2 := by
    rw [h.fin_eq, h.pos, List.length_cons]
    omega
  rw [inplaceStep, if_neg h.not_end, hread, pure_bind, if_pos rfl, if_pos hroom]
  rfl

end Rounds

/-! ## The whole loop -/

section Run

variable {policy : UriEncodingPolicy} {chars : UInt8 → Bool} {fin : ℕ} {after : List UInt8}

/-- A round that writes `b` in the place of `o` and goes on behind the piece `p`. -/
theorem ended_of_next {s : Cursors} {done old text text' : List UInt8}
    (count : ℕ) (h : s.At fin done old text after)
    (htext : old ++ text = o :: stale ++ text') (hcount : count + old.length = stale.length + 1)
    (hcount_pos : 0 < count) (hp : (readsAs policy chars p).isSome)
    (hstep : inplaceStep policy chars fin s = .ok (.next ⟨done ++ placed o p ::
      (stale ++ text' ++ after), s.out + 1, s.pos + count⟩))
    (ih : ∀ (s : Cursors) (done old : List UInt8), s.At fin done old text' after →
      ∃ r, EndsWith (inplaceStep policy chars fin) .diverges (fun s => fin - s.pos) s (.ok r) ∧
        Ended policy chars done (old ++ text') after (pieces percentSign text') r) :
    ∃ r, EndsWith (inplaceStep policy chars fin) .diverges (fun s => fin - s.pos) s (.ok r) ∧
      Ended policy chars done (old ++ text) after (p :: pieces percentSign text') r := by
  have hnext := h.written (b := placed o p) hcount htext
  obtain ⟨r, hends, hended⟩ := ih _ _ _ hnext
  refine ⟨r, (leadsTo_of_next hstep ?_).ends hends, ?_⟩
  · have hfin := hnext.fin_eq
    have hpos := hnext.pos
    dsimp only at hpos ⊢
    omega
  · rw [htext]
    exact hended.cons hp

/-- A round that refuses the piece `p`. -/
theorem ended_of_refused {s : Cursors} {done old text text' : List UInt8}
    (h : s.At fin done old text after)
    (htext : old ++ text = o :: stale ++ text') (hp : readsAs policy chars p = none)
    (hstep : inplaceStep policy chars fin s = s.refuse) :
    ∃ r, EndsWith (inplaceStep policy chars fin) .diverges (fun s => fin - s.pos) s (.ok r) ∧
      Ended policy chars done (old ++ text) after (p :: pieces percentSign text') r := by
  have hbuf : s.buf = done ++ (o :: (stale ++ text')) ++ after := by
    rw [h.buf, htext, List.cons_append]
  have hps : (p :: pieces percentSign text').mapM (readsAs policy chars) = none := by
    rw [List.mapM_cons, hp]
    rfl
  obtain ⟨r, hrefuse, hended⟩ := refuse_ended policy chars o (stale ++ text') _ hbuf h.out hps
  rw [htext]
  exact ⟨r, endsWith_of_done (hstep.trans hrefuse), hended⟩

theorem inplace_ended (policy : UriEncodingPolicy) (chars : UInt8 → Bool) (text : List UInt8)
    (s : Cursors) (done old : List UInt8) (h : s.At fin done old text after) :
    ∃ r, EndsWith (inplaceStep policy chars fin) .diverges (fun s => fin - s.pos) s (.ok r) ∧
      Ended policy chars done (old ++ text) after (pieces percentSign text) r := by
  induction text using pieces_induction percentSign generalizing s done old with
  | nil =>
      obtain ⟨r, hfinish, hended⟩ := finish_ended policy chars h
      rw [List.append_nil]
      exact ⟨r, endsWith_of_done ((inplaceStep_end h).trans hfinish), hended⟩
  | plain c text hc ih =>
      obtain ⟨o, stale, hstale⟩ := List.exists_cons_of_ne_nil (List.append_ne_nil_of_right_ne_nil
        old (List.cons_ne_nil c []))
      have htext : old ++ c :: text = o :: stale ++ text := by
        rw [← hstale, List.append_assoc, List.singleton_append]
      have hlength := congrArg List.length hstale
      rw [List.length_append, List.length_singleton, List.length_cons] at hlength
      rw [pieces_plain hc]
      by_cases hallowed : policy.allows chars c = true
      · refine ended_of_next 1 h htext (by omega) Nat.one_pos ?_ ?_ ih
        · rw [readsAs, if_pos hallowed]
          rfl
        · have hread : s.read s.out = pure o := Cursors.read_at done o
            (stale ++ text ++ after) (by rw [h.buf, htext]; simp) h.out
          rw [inplaceStep_plain h hc, if_pos hallowed, hread, pure_bind, h.write_eq htext]
          rfl
      · refine ended_of_refused h htext ?_ ?_
        · rw [readsAs, if_neg hallowed]
        · rw [inplaceStep_plain h hc, if_neg hallowed]
  | escape c1 c2 rest ih =>
      obtain ⟨o, stale, hstale⟩ := List.exists_cons_of_ne_nil (List.append_ne_nil_of_right_ne_nil
        old (List.cons_ne_nil percentSign [c1, c2]))
      have htext : old ++ percentSign :: c1 :: c2 :: rest = o :: stale ++ rest := by
        rw [← hstale, List.append_assoc]
        rfl
      have hlength := congrArg List.length hstale
      simp only [List.length_append, List.length_cons, List.length_nil] at hlength
      rw [pieces_escape]
      cases hread : looseEscape c1 c2 with
      | some c =>
          obtain ⟨hne, hchar⟩ := looseEscape_eq_some hread
          have hplaced : placed o (.escape c1 c2) = c := by
            rw [placed, hread, Option.getD_some]
          refine ended_of_next 3 h htext (by omega) (by decide) ?_ ?_ ih
          · rw [readsAs, hread]
            rfl
          · rw [inplaceStep_escape h, if_pos hne, hchar, h.write_eq htext, hplaced]
            rfl
      | none =>
          refine ended_of_refused h htext ?_ ?_
          · rw [readsAs, hread]
          · rw [inplaceStep_escape h, if_neg (not_not.mpr (looseEscape_eq_none hread))]
  | cut rest hrest =>
      refine ⟨_, endsWith_of_done (inplaceStep_cut h hrest), ?_⟩
      rw [pieces_cut hrest]
      refine ⟨rfl, fun hr => ?_, old ++ percentSign :: rest, h.buf, rfl, fun hr => ?_⟩
      · cases hr
      · cases hr

end Run

/-! ## Agreement with the appending version -/

theorem placed_eq_iff {policy : UriEncodingPolicy} {chars : UInt8 → Bool}
    {b : UInt8} (h : readsAs policy chars p = some b) (o : UInt8) :
    placed o p = b ↔ ∀ c, p = Piece.plain c → o = 0 := by
  cases p with
  | plain c =>
      rw [readsAs] at h
      split_ifs at h
      cases h
      rw [placed, add_eq_right]
      exact ⟨fun ho _ _ => ho, fun ho => ho _ rfl⟩
  | escape c1 c2 =>
      rw [readsAs] at h
      rw [placed, h]
      exact iff_of_true rfl (by rintro c ⟨⟩)
  | cut rest => cases h

/-- What is written is what the pieces are read as where each plain character is added to a
zero. -/
theorem zipWith_placed_iff {policy : UriEncodingPolicy} {chars : UInt8 → Bool}
    {ps : List (Piece UInt8)} {out : List UInt8} (h : ps.mapM (readsAs policy chars) = some out)
    {text : List UInt8} (hlength : ps.length ≤ text.length) :
    List.zipWith placed text ps = out ↔
      ∀ (i : ℕ) (c : UInt8), ps[i]? = some (Piece.plain c) → text[i]? = some 0 := by
  induction ps generalizing text out with
  | nil =>
      cases h
      rw [List.zipWith_nil_right]
      exact iff_of_true rfl fun i c hi => nomatch hi
  | cons p ps ih =>
      obtain ⟨b, bs, hp, hps, rfl⟩ := mapM_cons_eq_some h
      cases text with
      | nil => exact absurd hlength (Nat.not_succ_le_zero _)
      | cons o text =>
          rw [List.zipWith_cons_cons, List.cons.injEq, placed_eq_iff hp,
            ih hps (Nat.le_of_succ_le_succ hlength)]
          constructor
          · rintro ⟨hfirst, hrest⟩ i c hi
            cases i with
            | zero =>
                rw [List.getElem?_cons_zero, Option.some.injEq] at hi ⊢
                exact hfirst c hi
            | succ i => exact hrest i c hi
          · intro hall
            refine ⟨fun c hc => ?_, fun i c hi => hall (i + 1) c hi⟩
            have hzero := hall 0 c (by rw [List.getElem?_cons_zero, hc])
            exact Option.some.inj hzero

/-- The verdict and the decoded bytes are those of `decode_uri_component`, and only the place of
the text is written on. -/
def InPlaceRight (policy : UriEncodingPolicy) (chars : UInt8 → Bool)
    (before text after : List UInt8) : Prop :=
  ∃ r region, decodeUriComponentInplace policy chars (before ++ text ++ after) before.length
      (before.length + text.length) = .ok r ∧
    r.1.buf = before ++ region ++ after ∧ region.length = text.length ∧
    r.2 = (decodeUriComponent policy chars text).valid ∧
    (r.2 = true → before.length ≤ r.1.pos ∧
      region.take (r.1.pos - before.length) = (decodeUriComponent policy chars text).output)

theorem valid_eq_isSome (d : Decoded) : d.valid = d.result.isSome := by
  rw [Decoded.result]
  cases d.valid with
  | true => rfl
  | false => rfl

theorem output_of_result {d : Decoded} {out : List UInt8} (h : d.result = some out) :
    d.output = out := by
  rw [Decoded.result] at h
  split_ifs at h
  exact Option.some.inj h

/-- The two versions agree where a text is refused, or each of its plain characters is decoded to
a place that held a zero. -/
theorem inPlaceRight_iff (policy : UriEncodingPolicy) (chars : UInt8 → Bool)
    (before text after : List UInt8) :
    InPlaceRight policy chars before text after ↔
      (∃ p ∈ pieces percentSign text, Refused policy chars p) ∨
        ∀ (i : ℕ) (c : UInt8), (pieces percentSign text)[i]? = some (Piece.plain c) →
          text[i]? = some 0 := by
  have hstart : Cursors.At (before.length + text.length) before [] text after
      ⟨before ++ text ++ after, before.length, before.length⟩ := ⟨rfl, rfl, rfl, rfl⟩
  obtain ⟨r, hends, hended⟩ := inplace_ended policy chars text _ _ _ hstart
  have hrun := hends _ (Nat.lt_succ_self _)
  obtain ⟨region, hbuf, hlength, hregion⟩ := hended.region
  rw [List.nil_append] at hlength hregion
  have hverdict : r.2 = (decodeUriComponent policy chars text).valid := by
    rw [valid_eq_isSome, decodeUriComponent_result, hended.verdict]
  have hright : InPlaceRight policy chars before text after ↔
      (r.2 = true → List.zipWith placed text (pieces percentSign text) =
        (decodeUriComponent policy chars text).output) := by
    constructor
    · rintro ⟨r', region', hrun', hbuf', hlength', -, hdecoded⟩ hr
      cases hrun.symm.trans hrun'
      have hsame : region' = region := by
        rw [hbuf, List.append_assoc, List.append_assoc] at hbuf'
        exact (List.append_inj (List.append_cancel_left hbuf') (by rw [hlength, hlength'])).1.symm
      rw [← hregion hr, ← (hdecoded hr).2, hended.pos hr, Nat.add_sub_cancel_left, hsame]
    · intro hout
      refine ⟨r, region, hrun, hbuf, hlength, hverdict, fun hr => ?_⟩
      rw [hended.pos hr, Nat.add_sub_cancel_left, hregion hr]
      exact ⟨Nat.le_add_right _ _, hout hr⟩
  rw [hright, hverdict, valid_eq_isSome]
  have hread := decodeUriComponent_result policy chars text
  cases hresult : (pieces percentSign text).mapM (readsAs policy chars) with
  | none =>
      rw [hresult] at hread
      rw [hread]
      obtain ⟨p, hp, hnone⟩ := mapM_eq_none_iff.mp hresult
      exact iff_of_true (fun h => nomatch h) (.inl ⟨p, hp, refused_iff.mpr hnone⟩)
  | some out =>
      rw [hresult] at hread
      have hnot : ¬ ∃ p ∈ pieces percentSign text, Refused policy chars p := by
        rintro ⟨p, hp, hrefused⟩
        have hnone := mapM_eq_none_iff.mpr ⟨p, hp, refused_iff.mp hrefused⟩
        rw [hnone] at hresult
        cases hresult
      rw [hread, output_of_result hread, or_iff_right hnot,
        ← zipWith_placed_iff hresult (length_pieces_le text)]
      exact ⟨fun h => h rfl, fun h _ => h⟩

/-- The character `a` is added to itself. -/
theorem not_inPlaceRight_plain :
    ¬ ∀ (policy : UriEncodingPolicy) (chars : UInt8 → Bool) (before text after : List UInt8),
      InPlaceRight policy chars before text after := by
  intro h
  obtain ⟨r, region, hrun, hbuf, hlength, -, hdecoded⟩ := h .skipChars (fun _ => true) [] [0x61] []
  have hsum : decodeUriComponentInplace .skipChars (fun _ => true) [0x61] 0 1 =
      .ok (⟨[0xC2], 1, 1⟩, true) := by decide
  cases hsum.symm.trans hrun
  cases hbuf.trans (List.append_nil _)
  cases (hdecoded rfl).2

end Webpp.Uri.Encoding
