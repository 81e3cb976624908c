import Webpp.Uri.Growth
import Webpp.Uri.SafeAuthority

/-!
# Hosts beside other components

A change of the output that commutes with what is done to the host and the port, as the
credentials in front of a host are, does not change how a host is parsed: the parser does to
the changed output what it does to the other one.
-/

namespace Webpp.Uri

open ComponentEncoder Loop Webpp.Text

variable {σ : Type} {chars : AsciiBitmap} {a b : Ctx σ} {host : List Char} {O : Output σ}

/-- A change of the output that is beside host and port. -/
structure BesideHost (O : Output σ) (f : σ → σ) : Prop where
  setValue : ∀ comp, comp = .host ∨ comp = .port → ∀ start stop out,
    O.setValue comp start stop (f out) = f (O.setValue comp start stop out)
  clear : ∀ comp, comp = .host ∨ comp = .port → ∀ out,
    O.clear comp (f out) = f (O.clear comp out)
  append : ∀ chars out, O.append .host chars (f out) = f (O.append .host chars out)
  editSegments : ∀ g out, O.editSegments .host g (f out) = f (O.editSegments .host g out)
  hasValue : ∀ out, O.hasValue .host (f out) = O.hasValue .host out
  scheme : ∀ out, O.view .scheme (f out) = O.view .scheme out

theorem BesideHost.comp {f g : σ → σ} (hf : BesideHost O f) (hg : BesideHost O g) :
    BesideHost O (fun out => f (g out)) where
  setValue comp hcomp start stop out := by
    rw [hf.setValue comp hcomp, hg.setValue comp hcomp]
  clear comp hcomp out := by rw [hf.clear comp hcomp, hg.clear comp hcomp]
  append chars out := by rw [hf.append, hg.append]
  editSegments g out := by rw [hf.editSegments, hg.editSegments]
  hasValue out := by rw [hf.hasValue, hg.hasValue]
  scheme out := by rw [hf.scheme, hg.scheme]

/-- The two contexts are at the same place of a text that is behind the two texts `before`, and
the output of `a` is the changed one of `b`; the values of the statuses are related by `V`. -/
structure Beside (V : UriStatus → UriStatus → Prop) (f : σ → σ) (before : List Char × List Char)
    (a b : Ctx σ) : Prop where
  beg : ∃ text, a.beg = before.1 ++ text ∧ b.beg = before.2 ++ text
  pos : a.pos = b.pos
  out : a.out = f b.out
  value : V a.status.value b.status.value
  scheme : a.scheme = b.scheme

/-- The encoders of two such contexts. -/
structure EncoderBeside (V : UriStatus → UriStatus → Prop) (f : σ → σ)
    (before : List Char × List Char) (e e' : ComponentEncoder σ) : Prop where
  ctx : Beside V f before e.ctx e'.ctx
  beg : e.beg = e'.beg

section Operations

variable {V : UriStatus → UriStatus → Prop} {f : σ → σ} {before : List Char × List Char}

namespace Beside

variable {a b : Ctx σ} (h : Beside V f before a b)
include h

theorem setOut {out out' : σ} (hout : out = f out') :
    Beside V f before { a with out := out } { b with out := out' } :=
  ⟨h.beg, h.pos, hout, h.value, h.scheme⟩

theorem setPos (pos : List Char) :
    Beside V f before { a with pos := pos } { b with pos := pos } :=
  ⟨h.beg, rfl, h.out, h.value, h.scheme⟩

theorem setWarning (warning : UriWarning) :
    Beside V f before (a.setWarning warning) (b.setWarning warning) :=
  ⟨h.beg, h.pos, h.out, h.value, h.scheme⟩

theorem setValid (value : UriStatus) : Beside Eq f before (a.setValid value) (b.setValid value) :=
  ⟨h.beg, h.pos, h.out, rfl, h.scheme⟩

theorem setError (value : UriStatus) : Beside Eq f before (a.setError value) (b.setError value) :=
  ⟨h.beg, h.pos, h.out, rfl, h.scheme⟩

theorem withValue {W : UriStatus → UriStatus → Prop} (hvalue : W a.status.value b.status.value) :
    Beside W f before a b :=
  ⟨h.beg, h.pos, h.out, hvalue, h.scheme⟩

end Beside

namespace EncoderBeside

variable {O : Output σ} {e e' : ComponentEncoder σ}

theorem setPos (h : EncoderBeside V f before e e') (pos : List Char) :
    EncoderBeside V f before (e.setPos pos) (e'.setPos pos) :=
  ⟨h.ctx.setPos pos, h.beg⟩

theorem setOut (h : EncoderBeside V f before e e') {out out' : σ} (hout : out = f out') :
    EncoderBeside V f before (e.setOut out) (e'.setOut out') :=
  ⟨h.ctx.setOut hout, h.beg⟩

theorem setWarning (h : EncoderBeside V f before e e') (warning : UriWarning) :
    EncoderBeside V f before (e.setWarning warning) (e'.setWarning warning) :=
  ⟨h.ctx.setWarning warning, h.beg⟩

theorem resetBegin (h : EncoderBeside V f before e e') :
    EncoderBeside V f before e.resetBegin e'.resetBegin :=
  ⟨h.ctx, h.ctx.pos⟩

variable (hf : BesideHost O f)
include hf

theorem appendTo (h : EncoderBeside V f before e e') (chars : List Char) :
    EncoderBeside V f before (appendTo O .host chars e) (appendTo O .host chars e') :=
  h.setOut (by rw [h.ctx.out, hf.append])

theorem setValueOf (h : EncoderBeside V f before e e') (start stop : List Char) :
    EncoderBeside V f before (setValueOf O .host start stop e)
      (setValueOf O .host start stop e') := by
  rw [ComponentEncoder.setValueOf, ComponentEncoder.setValueOf]
  split
  · exact h.setOut (by rw [h.ctx.out, hf.setValue .host (.inl rfl)])
  · exact h

theorem setValue (h : EncoderBeside V f before e e') :
    EncoderBeside V f before (setValue O .host e) (setValue O .host e') := by
  rw [ComponentEncoder.setValue, ComponentEncoder.setValue, h.beg, h.ctx.pos]
  exact h.setValueOf hf e'.beg e'.ctx.pos

theorem startSegment (h : EncoderBeside V f before e e') :
    EncoderBeside V f before (startSegment O .host e) (startSegment O .host e') := by
  rw [ComponentEncoder.startSegment, ComponentEncoder.startSegment]
  split
  · exact h.setOut (by rw [h.ctx.out, hf.editSegments])
  · exact h

theorem endSegmentOf (h : EncoderBeside V f before e e') (start stop : List Char) :
    EncoderBeside V f before (endSegmentOf O .host start stop e)
      (endSegmentOf O .host start stop e') := by
  rw [ComponentEncoder.endSegmentOf, ComponentEncoder.endSegmentOf]
  split
  · exact (h.setOut (by rw [h.ctx.out, hf.editSegments])).resetBegin
  · exact h

theorem endSegment (h : EncoderBeside V f before e e') :
    EncoderBeside V f before (endSegment O .host e) (endSegment O .host e') := by
  rw [ComponentEncoder.endSegment, ComponentEncoder.endSegment, h.beg, h.ctx.pos]
  exact h.endSegmentOf hf e'.beg e'.ctx.pos

omit hf in
theorem resetSegmentStart (h : EncoderBeside V f before e e') :
    EncoderBeside V f before (resetSegmentStart O .host e) (resetSegmentStart O .host e') := by
  rw [ComponentEncoder.resetSegmentStart, ComponentEncoder.resetSegmentStart]
  split
  · exact h.resetBegin
  · exact h

omit hf in
theorem ignoreCharacter (h : EncoderBeside V f before e e') (count : ℕ) :
    Simulates (EncoderBeside V f before) (e.ignoreCharacter count) (e'.ignoreCharacter count) := by
  rw [ComponentEncoder.ignoreCharacter, ComponentEncoder.ignoreCharacter, h.ctx.pos]
  cases advance e'.ctx.pos count with
  | error fault => exact .fault _ _
  | ok pos => exact .ok (h.setPos pos)

theorem skipSeparator (h : EncoderBeside V f before e e') (count : ℕ) :
    Simulates (EncoderBeside V f before) (skipSeparator O .host e count)
      (skipSeparator O .host e' count) := by
  rw [ComponentEncoder.skipSeparator, ComponentEncoder.skipSeparator, h.ctx.pos]
  cases advance e'.ctx.pos count with
  | error fault => exact .fault _ _
  | ok pos =>
      rw [ok_bind, ok_bind]
      split
      · exact .ok ((h.appendTo hf _).setPos pos)
      · exact .ok (h.setPos pos)

theorem nextSegment (h : EncoderBeside V f before e e') (sepCount : ℕ) :
    Simulates (EncoderBeside V f before) (nextSegment O .host e sepCount)
      (nextSegment O .host e' sepCount) := by
  rw [ComponentEncoder.nextSegment, ComponentEncoder.nextSegment]
  split
  · split
    · exact (h.skipSeparator hf sepCount).bind fun e e' he =>
        .ok (he.resetSegmentStart.startSegment hf)
    · exact ((h.endSegment hf).skipSeparator hf sepCount).bind fun e e' he =>
        .ok he.resetSegmentStart
  · exact (h.skipSeparator hf sepCount).bind fun e e' he =>
      .ok (he.endSegment hf).resetSegmentStart

theorem decodeOrTolower (h : EncoderBeside V f before e e') (chars : AsciiBitmap) :
    Simulates (fun r r' => r.1 = r'.1 ∧ EncoderBeside V f before r.2 r'.2)
      (decodeOrTolower O .host chars e) (decodeOrTolower O .host chars e') := by
  rw [Uri.decodeOrTolower, Uri.decodeOrTolower, h.ctx.pos]
  split
  · cases loop (tolowerStep chars) .diverges (e'.ctx.pos.length + 1) ([], e'.ctx.pos) with
    | error fault => exact .fault _ _
    | ok r => exact .ok ⟨rfl, (h.appendTo hf r.1).setPos r.2.1⟩
  · exact .ok ⟨rfl, h.setPos _⟩

end EncoderBeside

/-! ## Ports -/

/-- The loop of `parse_port` gives the same number, or the same error. -/
theorem Beside.portLoop (o : Options) (pos : List Char) (value : ℕ) (h : Beside V f before a b) :
    ∃ r a' b', portLoop o pos value a = (r, a') ∧ portLoop o pos value b = (r, b') ∧
      (r ≠ none → Beside V f before a' b') ∧ (r = none → Beside Eq f before a' b') := by
  induction pos generalizing value a b with
  | nil =>
      exact ⟨some value, _, _, rfl, rfl, fun _ => h.setPos [], fun hnone => nomatch hnone⟩
  | cons c pos ih =>
      rw [Uri.portLoop, Uri.portLoop]
      split
      · split
        · exact ⟨none, _, _, rfl, rfl, fun hne => absurd rfl hne,
            fun _ => (h.setPos pos).setError _⟩
        · exact ih _ h
      · split
        · exact ⟨some value, _, _, rfl, rfl, fun _ => h.setPos (c :: pos),
            fun hnone => nomatch hnone⟩
        · split
          · exact ih value (h.setWarning _)
          · exact ⟨none, _, _, rfl, rfl, fun hne => absurd rfl hne,
              fun _ => (h.setPos (c :: pos)).setError _⟩

theorem Beside.parsePort (hf : BesideHost O f) (h : Beside V f before a b) :
    Simulates (Beside Eq f before) (parsePort standardUriParsingOptions O a)
      (parsePort standardUriParsingOptions O b) := by
  rw [Uri.parsePort, Uri.parsePort, h.pos]
  split
  · exact .ok (h.setValid .valid)
  · obtain ⟨r, a', b', ha, hb, hsome, hnone⟩ := h.portLoop standardUriParsingOptions b.pos 0
    rw [if_neg (by decide)]
    dsimp only
    rw [ha, hb]
    cases r with
    | none => exact .ok (hnone rfl)
    | some value =>
        have hbeside := hsome (Option.some_ne_none value)
        have hskip : skipLeadingZeros a'.pos b.pos = skipLeadingZeros b'.pos b.pos := by
          rw [hbeside.pos]
        dsimp only
        rw [hskip]
        cases skipLeadingZeros b'.pos b.pos with
        | error fault => exact .fault _ _
        | ok beg =>
            refine .ok ((hbeside.setOut ?_).setValid .validAuthorityEnd)
            rw [hbeside.out, hbeside.pos, hf.scheme]
            split
            · exact hf.clear .port (.inr rfl) _
            · exact hf.setValue .port (.inr rfl) _ _ _

/-! ## Addresses -/

theorem Beside.afterIpv6 (h : Beside V f before a b) :
    Beside Eq f before (afterIpv6 a) (afterIpv6 b) := by
  rw [Uri.afterIpv6, Uri.afterIpv6, h.pos]
  split
  · exact h.setValid .valid
  · split
    · exact h.setValid .validPath
    · exact (h.setValid .validPort).setPos _
    · exact (h.setValid .validFragment).setPos _
    · exact (h.setValid .validQueries).setPos _
    · exact h.setError .ipv6CharAfterClosing

theorem Beside.parseHostIpv6 (hf : BesideHost O f) (h : Beside V f before a b) :
    Simulates (Beside Eq f before) (parseHostIpv6 O a) (parseHostIpv6 O b) := by
  have hhas : O.hasValue .host a.out = O.hasValue .host b.out := by rw [h.out, hf.hasValue]
  rw [Uri.parseHostIpv6, Uri.parseHostIpv6, h.pos, hhas]
  split
  · exact .ok (h.setError .invalidDomainCodePoint)
  · cases advance b.pos 1 with
    | error fault => exact .fault _ _
    | ok pos =>
        rw [ok_bind, ok_bind]
        generalize Ip.inetPton6 pos (List.replicate 16 0) ']' = r
        dsimp only
        split
        · exact .ok ((h.setPos r.src).setError .ipv6Unclosed)
        · cases deref r.src with
          | error fault => exact .fault _ _
          | ok c =>
              rw [ok_bind, ok_bind]
              split
              · refine .ok ((h.setPos r.src.tail).setOut ?_).afterIpv6
                rw [h.out, hf.setValue .host (.inl rfl)]
              · exact .ok ((h.setPos r.src).setError .ipv6Unclosed)
        · exact .ok ((h.setPos r.src).setError _)

end Operations

/-! ## The text of a host -/

/-- The escapes of the text are whole. -/
def escapesWhole : List Char → Bool
  | [] => true
  | '%' :: c1 :: c2 :: text => isHexDigit c1 && isHexDigit c2 && escapesWhole text
  | c :: text => c != '%' && escapesWhole text

/-- A text that is a host, or a host and a port: there is no `@` and no slash in it. -/
structure IsHostText (host : List Char) : Prop where
  plain : ∀ c ∈ host, c ≠ '@' ∧ c ≠ '/'
  escapes : escapesWhole host = true

/-- The position is in a host that ends at the slash in front of `rest`. -/
def HostAhead (rest pos : List Char) : Prop := ∃ host, pos = host ++ '/' :: rest ∧ IsHostText host

section Ahead

variable {rest pos : List Char} {c : Char}

theorem escapesWhole_cons (hc : c ≠ '%') (text : List Char) :
    escapesWhole (c :: text) = escapesWhole text := by
  rw [escapesWhole.eq_def]
  split
  · rename_i heq
    cases heq
  · rename_i heq
    exact absurd (List.cons.inj heq).1 hc
  · rename_i heq
    cases heq
    rw [bne_iff_ne.mpr hc, Bool.true_and]

theorem IsHostText.tail (h : IsHostText (c :: host)) (hc : c ≠ '%') :
    IsHostText host :=
  ⟨(List.forall_mem_cons.mp h.plain).2, by rw [← escapesWhole_cons hc, h.escapes]⟩

theorem HostAhead.tail (h : HostAhead rest (c :: pos)) (hslash : c ≠ '/') (hpercent : c ≠ '%') :
    HostAhead rest pos := by
  obtain ⟨host, hpos, hhost⟩ := h
  cases host with
  | nil => exact absurd (List.cons.inj hpos).1 hslash
  | cons d host =>
      obtain ⟨rfl, rfl⟩ := List.cons.inj hpos
      exact ⟨host, rfl, hhost.tail hpercent⟩

theorem HostAhead.head_ne (h : HostAhead rest (c :: pos)) : c ≠ '@' := by
  obtain ⟨host, hpos, hhost⟩ := h
  cases host with
  | nil =>
      obtain ⟨rfl, -⟩ := List.cons.inj hpos
      decide
  | cons d host =>
      obtain ⟨rfl, -⟩ := List.cons.inj hpos
      exact (hhost.plain c List.mem_cons_self).1

theorem decodedChar_isSome {c1 c2 : Char} (h1 : isHexDigit c1 = true) (h2 : isHexDigit c2 = true) :
    ∃ d, decodedChar c1 c2 = some d := by
  obtain ⟨d, hd⟩ := exists_hexDigitSafe h1
  obtain ⟨v, hv⟩ := exists_hexDigitSafe h2
  exact ⟨_, by rw [decodedChar, hd, hv]⟩

theorem decodeUriComponent_cons (hc : c ≠ '%') (pos : List Char) :
    decodeUriComponent chars (c :: pos) =
      if chars.contains c then ([], c :: pos, false)
      else (c :: (decodeUriComponent chars pos).1, (decodeUriComponent chars pos).2) := by
  rw [decodeUriComponent.eq_def]
  dsimp only
  rw [if_neg hc]

theorem decodeUriComponent_ahead (rest : List Char)
    (hslash : chars.contains '/' = true) (hhost : IsHostText host) :
    HostAhead rest (decodeUriComponent chars (host ++ '/' :: rest)).2.1 ∧
      (decodeUriComponent chars (host ++ '/' :: rest)).2.2 = false := by
  obtain ⟨hplain, hescapes⟩ := hhost
  fun_induction escapesWhole host with
  | case1 =>
      rw [List.nil_append, decodeUriComponent_cons (by decide), if_pos hslash]
      exact ⟨⟨[], rfl, hplain, rfl⟩, rfl⟩
  | case2 c1 c2 text ih =>
      rw [Bool.and_eq_true, Bool.and_eq_true] at hescapes
      obtain ⟨d, hd⟩ := decodedChar_isSome hescapes.1.1 hescapes.1.2
      simp only [List.cons_append]
      rw [decodeUriComponent, if_pos rfl]
      simp only [hd]
      exact ih (fun c hc => hplain c (by simp [hc])) hescapes.2
  | case3 c text hno ih =>
      rw [Bool.and_eq_true, bne_iff_ne] at hescapes
      rw [List.cons_append, decodeUriComponent_cons hescapes.1]
      split
      · refine ⟨⟨c :: text, rfl, hplain, ?_⟩, rfl⟩
        rw [escapesWhole_cons hescapes.1, hescapes.2]
      · exact ih (List.forall_mem_cons.mp hplain).2 hescapes.2

theorem findFirstIn_ahead (rest : List Char)
    (hslash : chars.contains '/' = true) (hpercent : chars.contains '%' = true)
    (hhost : IsHostText host) :
    HostAhead rest (chars.findFirstIn (host ++ '/' :: rest)) ∧
      chars.findFirstIn (host ++ '/' :: rest) ≠ [] := by
  induction host with
  | nil =>
      rw [List.nil_append, AsciiBitmap.findFirstIn, if_pos hslash]
      exact ⟨⟨[], rfl, hhost⟩, List.cons_ne_nil _ _⟩
  | cons c host ih =>
      rw [List.cons_append, AsciiBitmap.findFirstIn]
      split
      · exact ⟨⟨c :: host, rfl, hhost⟩, List.cons_ne_nil _ _⟩
      · rename_i hc
        refine ih (hhost.tail ?_)
        rintro rfl
        exact hc hpercent

theorem tolowerStep_ahead (hslash : chars.contains '/' = true)
    {s : List Char × List Char} (hs : HostAhead rest s.2) :
    Partly (FlowSat (fun s' => HostAhead rest s'.2)
      (fun r => HostAhead rest r.2.1 ∧ r.2.2 = false)) (tolowerStep chars s) := by
  obtain ⟨host, hpos, hhost⟩ := hs
  obtain ⟨hahead, hstop⟩ := decodeUriComponent_ahead rest hslash hhost
  have hne : host ++ '/' :: rest ≠ [] :=
    List.append_ne_nil_of_right_ne_nil host (List.cons_ne_nil _ _)
  rw [tolowerStep, hpos, if_neg hne]
  generalize decodeUriComponent chars (host ++ '/' :: rest) = r at hahead hstop
  dsimp only
  rw [hstop, if_neg Bool.false_ne_true]
  cases hr : r.2.1 with
  | nil => trivial
  | cons c rest' =>
      rw [hr] at hahead
      rw [deref_cons, ok_bind]
      split
      · rename_i hupper
        refine hahead.tail ?_ ?_
        · rintro rfl
          exact absurd hupper (by decide)
        · rintro rfl
          exact absurd hupper (by decide)
      · exact ⟨hahead, rfl⟩

theorem interesting_of_stop (O : Output σ) :
    (authorityInteresting O true).contains '/' = true ∧
      (authorityInteresting O true).contains '%' = true := by
  have hslash : forbiddenDomains.contains '/' = true := by decide
  have hpercent : forbiddenDomains.contains '%' = true := by decide
  rw [authorityInteresting, if_neg (by decide)]
  split
  · rw [AsciiBitmap.contains_union, AsciiBitmap.contains_union, hslash, hpercent]
    exact ⟨rfl, rfl⟩
  · exact ⟨hslash, hpercent⟩

theorem decodeOrTolower_ahead (O : Output σ) {e : ComponentEncoder σ}
    (h : HostAhead rest e.ctx.pos) :
    Partly (fun r => HostAhead rest r.2.ctx.pos ∧ r.1 = false)
      (decodeOrTolower O .host (authorityInteresting O true) e) := by
  obtain ⟨hslash, hpercent⟩ := interesting_of_stop O
  rw [decodeOrTolower]
  split
  · cases hloop : loop (tolowerStep (authorityInteresting O true)) .diverges
        (e.ctx.pos.length + 1) ([], e.ctx.pos) with
    | error fault => trivial
    | ok r =>
        have hleft : HostAhead rest r.2.1 ∧ r.2.2 = false :=
          loop_partly (fun s : List Char × List Char => HostAhead rest s.2)
            (fun r => HostAhead rest r.2.1 ∧ r.2.2 = false)
            (fun s hs => tolowerStep_ahead hslash hs) h hloop
        exact hleft
  · obtain ⟨host, hpos, hhost⟩ := h
    obtain ⟨hahead, hne⟩ := findFirstIn_ahead rest hslash hpercent hhost
    rw [← hpos] at hahead hne
    refine ⟨hahead, ?_⟩
    exact Bool.eq_false_iff.mpr fun hnil => hne (List.isEmpty_iff.mp hnil)

end Ahead

end Webpp.Uri
