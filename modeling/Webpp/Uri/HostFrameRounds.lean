import Webpp.Uri.HostFrame
import Webpp.Uri.PresetHosts

/-!
# The rounds over a host beside other components

Two loops of `parse_authority_pieces` that are at the same place of a host do the same to their
outputs, whatever was in front of the host (`authorityLoop_beside`).
-/

namespace Webpp.Uri

open ComponentEncoder Loop Webpp.Text

variable {σ : Type} {e e' : ComponentEncoder σ} {s s' : AuthorityState σ} {a b : Ctx σ}

/-- The loops in the same host behind other texts. -/
structure HostBeside (V : UriStatus → UriStatus → Prop) (f : σ → σ)
    (before : List Char × List Char) (s s' : AuthorityState σ) : Prop where
  coder : EncoderBeside V f before s.coder s'.coder
  hostBegin : s.hostBegin = s'.hostBegin
  start : s'.coder.ctx.beg = before.2 ++ s'.hostBegin
  inside : s'.coder.ctx.pos <:+ s'.hostBegin
  must : s.mustContainCredentials = s'.mustContainCredentials

/-- Behind what is no port the statuses have the same value. -/
def SameIf (must : Bool) (value value' : UriStatus) : Prop := must = true → value = value'

/-- Both loops are in the host. -/
def InHostBeside (f : σ → σ) (before : List Char × List Char) (rest : List Char)
    (s s' : AuthorityState σ) : Prop :=
  HostBeside (SameIf s'.mustContainCredentials) f before s s' ∧ HostAhead rest s'.coder.ctx.pos

/-- Both loops are left in the same way. -/
inductive ExitBeside (f : σ → σ) (before : List Char × List Char) :
    AuthorityExit σ → AuthorityExit σ → Prop where
  | broke {s s' : AuthorityState σ} (h : HostBeside Eq f before s s') (skipLastChar : Bool) :
      ExitBeside f before (.broke s skipLastChar) (.broke s' skipLastChar)
  | returned {a b : Ctx σ} (h : Beside Eq f before a b) :
      ExitBeside f before (.returned a) (.returned b)

/-- Both rounds do the same. -/
abbrev FlowBeside (f : σ → σ) (before : List Char × List Char) (rest : List Char) :
    AuthorityFlow σ → AuthorityFlow σ → Prop :=
  FlowRelated (InHostBeside f before rest) (ExitBeside f before)

section Rounds

variable {o : Options} {O : Output σ} {f : σ → σ} {before : List Char × List Char}
  {rest pos : List Char}
  {s s' : AuthorityState σ} {c : Char}

theorem HostBeside.setCoder {V W : UriStatus → UriStatus → Prop}
    (h : HostBeside V f before s s') (he : EncoderBeside W f before e e')
    (hbeg : e'.ctx.beg = s'.coder.ctx.beg) (hpos : e'.ctx.pos <:+ s'.coder.ctx.pos) :
    HostBeside W f before (s.setCoder e) (s'.setCoder e') where
  coder := he
  hostBegin := h.hostBegin
  start := hbeg.trans h.start
  inside := hpos.trans h.inside
  must := h.must

theorem HostBeside.setValid {V : UriStatus → UriStatus → Prop} (h : HostBeside V f before s s')
    (value : UriStatus) :
    HostBeside Eq f before (s.setCoder (s.coder.setValid value))
      (s'.setCoder (s'.coder.setValid value)) :=
  h.setCoder ⟨h.coder.ctx.setValid value, h.coder.beg⟩ rfl (List.suffix_refl _)

theorem InHostBeside.passed (h : InHostBeside f before rest s s')
    (hpos : s'.coder.ctx.pos = c :: pos) (hc : c ≠ '/' ∧ c ≠ '%')
    (he : EncoderBeside (SameIf s'.mustContainCredentials) f before e e')
    (hmoved : MovedTo pos s'.coder.ctx e'.ctx) :
    InHostBeside f before rest (s.setCoder e) (s'.setCoder e') := by
  have hahead := h.2
  rw [hpos] at hahead
  refine ⟨h.1.setCoder he hmoved.beg ?_, ?_⟩
  · rw [hmoved.pos, hpos]
    exact List.suffix_cons c pos
  · show HostAhead rest e'.ctx.pos
    rw [hmoved.pos]
    exact hahead.tail hc.1 hc.2

/-- The loop is left because credentials had to come. -/
theorem InHostBeside.mustContain (h : InHostBeside f before rest s s')
    (hmust : s'.mustContainCredentials = true) :
    FlowBeside f before rest (.done (.returned s.coder.ctx)) (.done (.returned s'.coder.ctx)) :=
  .done (.returned (h.1.coder.ctx.withValue (h.1.coder.ctx.value hmust)))

theorem InHostBeside.error (h : InHostBeside f before rest s s') (value : UriStatus) :
    FlowBeside f before rest (.done (.returned (s.coder.ctx.setError value)))
      (.done (.returned (s'.coder.ctx.setError value))) :=
  .done (.returned (h.1.coder.ctx.setError value))

theorem authorityBreak_beside (h : HostBeside Eq f before s s') (skipLastChar : Bool) :
    FlowBeside f before rest (authorityBreak o true s skipLastChar)
      (authorityBreak o true s' skipLastChar) := by
  rw [authorityBreak, authorityBreak, h.must, h.hostBegin, h.coder.ctx.pos]
  split
  · exact .done (.returned h.coder.ctx)
  · split
    · split
      · exact .done (.returned (h.coder.ctx.setError .hostMissing))
      · split
        · exact .done (.broke (h.setValid .validPath) skipLastChar)
        · exact .done (.broke h skipLastChar)
    · exact .done (.broke h skipLastChar)

theorem authoritySlash_beside (h : InHostBeside f before rest s s') :
    FlowBeside f before rest (authoritySlash o true s) (authoritySlash o true s') := by
  rw [authoritySlash, authoritySlash, h.1.must]
  split
  · rename_i hmust
    exact h.mustContain hmust
  · exact authorityBreak_beside (h.1.setValid .validPath) false

theorem authorityNull_beside (h : InHostBeside f before rest s s') :
    FlowBeside f before rest (authorityNull o true s) (authorityNull o true s') := by
  rw [authorityNull, authorityNull, h.1.must, h.1.hostBegin, h.1.coder.ctx.pos]
  split
  · rename_i hmust
    exact h.mustContain hmust
  · split
    · split
      · exact h.error .hostMissing
      · exact authorityBreak_beside (h.1.setValid .validPath) false
    · exact h.error _

theorem InHostBeside.ignored (h : InHostBeside f before rest s s')
    (hpos : s'.coder.ctx.pos = c :: pos) (hc : c ≠ '/' ∧ c ≠ '%') :
    Simulates (FlowBeside f before rest)
      ((s.coder.setWarning .invalidCharacter).ignoreCharacter >>= fun e =>
        pure (.next (s.setCoder e)))
      ((s'.coder.setWarning .invalidCharacter).ignoreCharacter >>= fun e =>
        pure (.next (s'.setCoder e))) := by
  have hskip := ((h.1.coder.setWarning .invalidCharacter).ignoreCharacter 1).and_right
    (ignoreCharacter_cons (e := s'.coder.setWarning .invalidCharacter) hpos).partly
  refine hskip.bind fun e e' he => .ok (.next ?_)
  exact h.passed hpos hc he.1 he.2.of_setWarning

variable (hf : BesideHost O f)
include hf

theorem authorityEndsAt_beside (h : InHostBeside f before rest s s')
    (hpos : s'.coder.ctx.pos = c :: pos) (hc : c ≠ '/' ∧ c ≠ '%') (parse : Bool)
    (value : UriStatus) :
    Simulates (FlowBeside f before rest) (authorityEndsAt o O true parse value s)
      (authorityEndsAt o O true parse value s') := by
  rw [authorityEndsAt, authorityEndsAt, h.1.must]
  split
  · rename_i hmust
    exact .ok (h.mustContain hmust)
  · split
    · exact .ok (authorityBreak_beside (h.1.setValid value) true)
    · have hskip := ((h.1.coder.setWarning .invalidCharacter).skipSeparator hf 1).and_right
        (skipSeparator_cons (e := s'.coder.setWarning .invalidCharacter) hpos).partly
      refine hskip.bind fun e e' he => .ok (.next ?_)
      exact h.passed hpos hc he.1 he.2.of_setWarning

theorem authorityColon_beside (h : InHostBeside f before rest s s')
    (hpos : s'.coder.ctx.pos = ':' :: pos) :
    Simulates (FlowBeside f before rest) (authorityColon o O true s)
      (authorityColon o O true s') := by
  have hahead : HostAhead rest pos := by
    have hcolon := h.2
    rw [hpos] at hcolon
    exact hcolon.tail (by decide) (by decide)
  rw [authorityColon, authorityColon]
  dsimp only
  split
  · exact h.ignored hpos (by decide)
  · split
    · exact .ok (authorityBreak_beside (h.1.setValid .validPort) false)
    · rw [h.1.coder.ctx.pos, hpos, advance_one_cons, ok_bind, ok_bind]
      have hport := (((h.1.coder.ctx.setPos pos).setValid .validPort).parsePort hf).and_right
        (parsePort_safe standardUriParsingOptions O (.inl rfl)).partly
      refine hport.bind fun a b hab => ?_
      obtain ⟨hab, hlowers⟩ := hab
      have hbeg : b.beg = s'.coder.ctx.beg := hlowers.beg
      rw [hab.value]
      split
      · have hout : O.clear .port a.out = f (O.clear .port b.out) := by
          rw [hab.out, hf.clear .port (.inr rfl)]
        refine .ok (.next ⟨⟨⟨?_, h.1.coder.beg⟩, h.1.hostBegin, ?_, ?_, rfl⟩, hahead⟩)
        · exact ((hab.setPos pos).setOut hout).withValue fun _ => hab.value
        · exact hbeg.trans h.1.start
        · have hinside := h.1.inside
          rw [hpos] at hinside
          exact (List.suffix_cons ':' pos).trans hinside
      · have hcoder : EncoderBeside Eq f before ⟨a, s'.coder.beg, s.coder.buffer⟩
            ⟨b, s'.coder.beg, s'.coder.buffer⟩ := ⟨hab, rfl⟩
        have hset := (hcoder.endSegmentOf hf s'.coder.beg (':' :: pos)).setValueOf hf
          s'.hostBegin (':' :: pos)
        rw [h.1.coder.beg, h.1.hostBegin]
        split
        · split
          · exact .ok (.done (.returned (hset.ctx.setError .hostMissing)))
          · rw [hset.ctx.pos]
            split
            · exact .ok (.done (.returned (hset.ctx.setValid .validPath)))
            · exact .ok (.done (.returned hset.ctx))
        · exact .ok (.done (.returned hset.ctx))

theorem authoritySwitch_beside (authorityBegin authorityBegin' : List Char)
    (h : InHostBeside f before rest s s') (hpos : s'.coder.ctx.pos = c :: pos) :
    Simulates (FlowBeside f before rest) (authoritySwitch o O true authorityBegin s c)
      (authoritySwitch o O true authorityBegin' s' c) := by
  have hat : c ≠ '@' := by
    have hahead := h.2
    rw [hpos] at hahead
    exact hahead.head_ne
  rw [authoritySwitch.eq_def, authoritySwitch.eq_def]
  dsimp only
  split
  · refine (h.1.coder.ctx.parseHostIpv6 hf).bind fun a b hab => ?_
    exact .ok (.done (.returned hab))
  · exact authorityColon_beside hf h hpos
  · exact .ok (authoritySlash_beside h)
  · exact .ok (authoritySlash_beside h)
  · have hnext := (h.1.coder.nextSegment hf 1).and_right (nextSegment_cons hpos).partly
    refine hnext.bind fun e e' he => .ok (.next ?_)
    exact h.passed hpos (by decide) he.1 he.2
  · exact authorityEndsAt_beside hf h hpos (by decide) _ _
  · exact authorityEndsAt_beside hf h hpos (by decide) _ _
  · exact .ok (h.error .invalidDomainCodePoint)
  · split
    · exact h.ignored hpos (by decide)
    · exact .ok (h.error _)
  · split
    · exact h.ignored hpos (by decide)
    · exact .ok (h.error _)
  · split
    · exact h.ignored hpos (by decide)
    · exact .ok (h.error _)
  · exact absurd rfl hat
  · exact .ok (authorityNull_beside h)
  · exact .ok (h.error _)

theorem authorityAt_beside (authorityBegin authorityBegin' : List Char)
    {r r' : Bool × ComponentEncoder σ} (hr : r.1 = r'.1) (hr' : r'.1 = false)
    (h : InHostBeside f before rest (s.setCoder r.2) (s'.setCoder r'.2)) :
    Simulates (FlowBeside f before rest) (authorityAt o O true authorityBegin s r)
      (authorityAt o O true authorityBegin' s' r') := by
  have hpos : (s.setCoder r.2).coder.ctx.pos = (s'.setCoder r'.2).coder.ctx.pos :=
    h.1.coder.ctx.pos
  rw [authorityAt, authorityAt, hr, hr']
  rw [if_neg Bool.false_ne_true, if_neg Bool.false_ne_true, hpos]
  cases hcons : (s'.setCoder r'.2).coder.ctx.pos with
  | nil => exact .fault _ _
  | cons c pos => exact authoritySwitch_beside hf authorityBegin authorityBegin' h hcons

theorem authorityStep_beside (authorityBegin authorityBegin' : List Char)
    (h : InHostBeside f before rest s s') :
    Simulates (FlowBeside f before rest) (authorityStep o O true authorityBegin s)
      (authorityStep o O true authorityBegin' s') := by
  rw [authorityStep_eq, authorityStep_eq]
  have hsearch := ((h.1.coder.decodeOrTolower hf (authorityInteresting O true)).and_right
    (decodeOrTolower_ahead O h.2)).and_right (decodeOrTolower_rest O s'.coder)
  refine hsearch.bind fun r r' hr => ?_
  obtain ⟨⟨⟨hstop, hcoder⟩, hahead, hfalse⟩, htext, hmoved, -⟩ := hr
  exact authorityAt_beside hf authorityBegin authorityBegin' hstop hfalse
    ⟨h.1.setCoder hcoder hmoved.beg htext.suffix, hahead⟩

end Rounds

/-! ## The end of the host -/

section HostEnd

variable {o : Options} {O : Output σ} {f : σ → σ} {before : List Char × List Char}

/-- A character at which the search for an octet ends. -/
def EndsOctet (c : Char) : Prop :=
  c ≠ '.' ∧ isDigit c = false ∧ c ≠ 'X' ∧ c ≠ 'x' ∧ isHexDigit c = false

/-- The texts in front of the two hosts, read backwards: no octet goes on there. -/
def OctetFronts (front front' : List Char) : Prop :=
  front' = [] ∨ ∃ c rest c' rest', front = c :: rest ∧ front' = c' :: rest' ∧ EndsOctet c ∧
    EndsOctet c'

/-- What is left of the two texts, in front of the dots. -/
def PrunedAlike (front front' : List Char) (r r' : Option (List Char)) : Prop :=
  r = none ∧ r' = none ∨ ∃ text, r = some (text ++ front) ∧ r' = some (text ++ front')

theorem length_append_eq_iff (text front : List Char) (n : ℕ) :
    (text ++ front).length = front.length + n ↔ text.length = n := by
  rw [List.length_append]
  omega

theorem Beside.pruneDots {front front' : List Char} (hfronts : OctetFronts front front')
    (o : Options) (text : List Char) (h : Beside Eq f before a b) :
    Simulates (fun r r' => PrunedAlike front front' r.1 r'.1 ∧ Beside Eq f before r.2 r'.2)
      (pruneDots o front.length (text ++ front) a)
      (pruneDots o front'.length (text ++ front') b) := by
  induction text generalizing a b with
  | nil =>
      rcases hfronts with rfl | ⟨c, rest, c', rest', rfl, rfl, hc, hc'⟩
      · exact .fault _ _
      · rw [List.nil_append, List.nil_append, Uri.pruneDots, Uri.pruneDots, if_neg hc.1,
          if_neg hc'.1]
        exact .ok ⟨.inr ⟨[], rfl, rfl⟩, h⟩
  | cons c text ih =>
      have hwarned := h.setWarning .ipv4TrailingEmptyOctet
      rw [List.cons_append, List.cons_append, Uri.pruneDots, Uri.pruneDots]
      dsimp only
      split
      · simp only [length_append_eq_iff]
        split
        · exact .ok ⟨.inl ⟨rfl, rfl⟩, hwarned⟩
        · split
          · exact ih hwarned
          · exact .ok ⟨.inr ⟨text, rfl, rfl⟩, hwarned⟩
      · exact .ok ⟨.inr ⟨c :: text, rfl, rfl⟩, h⟩

/-- What is in front of an `x`. -/
def octetFront (start : ℕ) (before : List Char) : Run Bool :=
  if before.length < start + 1 then pure false
  else
    match before with
    | '0' :: before =>
        if before.length = start then pure true
        else do
          let c ← deref before
          pure (c == '.')
    | _ => pure false

theorem octetFront_cons {c : Char} (text front : List Char) :
    octetFront front.length (c :: text ++ front) =
      if c = '0' then
        if text = [] then pure true else deref text >>= fun c => pure (c == '.')
      else pure false := by
  have hlength : ¬(c :: text ++ front).length < front.length + 1 := by
    rw [List.length_append, List.length_cons]
    omega
  rw [octetFront.eq_def, if_neg hlength]
  by_cases hc : c = '0'
  · subst hc
    simp only [List.cons_append, if_pos]
    cases text with
    | nil => rw [List.nil_append, if_pos rfl, if_pos rfl]
    | cons d text =>
        rw [if_neg, if_neg (List.cons_ne_nil d text)]
        · rfl
        · rw [List.length_append, List.length_cons]
          omega
  · rw [if_neg hc]
    split
    · rename_i heq
      exact absurd (List.cons.inj heq).1 hc
    · rfl

theorem endsWithOctet_ends {c : Char} (hc : EndsOctet c) (rest : List Char) (mustBeHex : Bool) :
    endsWithOctet (c :: rest).length (c :: rest) mustBeHex = .ok false := by
  obtain ⟨hdot, hdigit, hcapital, hx, hhex⟩ := hc
  have hlength : ¬rest.length = (c :: rest).length := by
    rw [List.length_cons]
    omega
  rw [endsWithOctet.eq_def]
  dsimp only
  rw [if_neg hlength, if_neg hdot, hdigit, if_neg Bool.false_ne_true,
    if_neg (not_or.mpr ⟨hcapital, hx⟩), hhex, if_neg Bool.false_ne_true]
  rfl

theorem endsWithOctet_beside {front front' : List Char} (hfronts : OctetFronts front front')
    (text : List Char) (mustBeHex : Bool) :
    Simulates Eq (endsWithOctet front.length (text ++ front) mustBeHex)
      (endsWithOctet front'.length (text ++ front') mustBeHex) := by
  induction text generalizing mustBeHex with
  | nil =>
      rcases hfronts with rfl | ⟨c, rest, c', rest', rfl, rfl, hc, hc'⟩
      · exact .fault _ _
      · rw [List.nil_append, List.nil_append, endsWithOctet_ends hc, endsWithOctet_ends hc']
        exact .ok rfl
  | cons c text ih =>
      rw [List.cons_append, List.cons_append, endsWithOctet.eq_def,
        endsWithOctet.eq_def front'.length]
      dsimp only
      have hlast (front : List Char) : (text ++ front).length = front.length ↔ text.length = 0 :=
        length_append_eq_iff text front 0
      simp only [hlast]
      split
      · exact .ok rfl
      · rename_i hne
        split
        · exact .ok rfl
        · split
          · exact ih mustBeHex
          · split
            · obtain ⟨d, text, rfl⟩ :=
                List.exists_cons_of_ne_nil (List.ne_nil_of_length_pos (Nat.pos_of_ne_zero hne))
              show Simulates Eq (octetFront front.length (d :: text ++ front))
                (octetFront front'.length (d :: text ++ front'))
              rw [octetFront_cons, octetFront_cons]
              exact .refl _
            · split
              · exact ih true
              · exact .ok rfl

theorem slice_before {beg pos : List Char} (h : pos <:+ beg) (before : List Char) :
    slice (before ++ beg) pos = before ++ slice beg pos := by
  obtain ⟨text, rfl⟩ := h
  rw [slice_append, ← List.append_assoc, slice_append]

theorem HostBeside.isPossibleEndsWithIpv4 (hfronts : OctetFronts before.1.reverse before.2.reverse)
    (h : HostBeside Eq f before s s') :
    Simulates (fun r r' => r.1 = r'.1 ∧ Beside Eq f before r.2 r'.2)
      (isPossibleEndsWithIpv4 o s'.hostBegin s.coder.ctx)
      (isPossibleEndsWithIpv4 o s'.hostBegin s'.coder.ctx) := by
  obtain ⟨text, hleft, hright⟩ := h.coder.ctx.beg
  have htext : text = s'.hostBegin := List.append_cancel_left (hright.symm.trans h.start)
  subst htext
  have hstart (front : List Char) : (front ++ s'.hostBegin).length - s'.hostBegin.length =
      front.reverse.length := by
    rw [List.length_append, List.length_reverse, Nat.add_sub_cancel]
  have hslice (front : List Char) : (slice (front ++ s'.hostBegin) s'.coder.ctx.pos).reverse =
      (slice s'.hostBegin s'.coder.ctx.pos).reverse ++ front.reverse := by
    rw [slice_before h.inside, List.reverse_append]
  rw [Uri.isPossibleEndsWithIpv4, Uri.isPossibleEndsWithIpv4, hleft, hright,
    h.coder.ctx.pos, hstart, hstart, hslice, hslice]
  refine (h.coder.ctx.pruneDots hfronts o _).bind fun r r' hr => ?_
  obtain ⟨hpruned, hctx⟩ := hr
  rcases hpruned with ⟨hnone, hnone'⟩ | ⟨text, hsome, hsome'⟩
  · rw [hnone, hnone']
    exact .ok ⟨rfl, hctx⟩
  · rw [hsome, hsome']
    refine (endsWithOctet_beside hfronts text false).bind fun found found' heq => ?_
    exact .ok ⟨heq, hctx⟩

theorem Beside.checkTrailingDots (h : Beside Eq f before a b) (src : List Char) :
    (checkTrailingDots o src a).1 = (checkTrailingDots o src b).1 ∧
      Beside Eq f before (checkTrailingDots o src a).2 (checkTrailingDots o src b).2 := by
  have herror := h.setError .ipInvalidCharacter
  rw [Uri.checkTrailingDots, Uri.checkTrailingDots]
  split
  · split
    · split
      · exact ⟨rfl, h⟩
      · exact ⟨rfl, herror⟩
    · split
      · exact ⟨rfl, h.setWarning .ipv4TrailingEmptyOctet⟩
      · exact ⟨rfl, herror⟩
  · exact ⟨rfl, h⟩

/-- The loops over the octets are at the same place. -/
def OctetsBeside (f : σ → σ) (before : List Char × List Char) (s s' : HostIpv4State σ) : Prop :=
  s.src = s'.src ∧ s.stored = s'.stored ∧ s.octet = s'.octet ∧ Beside Eq f before s.ctx s'.ctx

/-- They are left in the same way. -/
inductive OctetsLeft (f : σ → σ) (before : List Char × List Char) :
    Option (HostIpv4State σ) × Ctx σ → Option (HostIpv4State σ) × Ctx σ → Prop where
  | none {a b : Ctx σ} (h : Beside Eq f before a b) : OctetsLeft f before (none, a) (none, b)
  | some {s s' : HostIpv4State σ} {a b : Ctx σ} (hs : OctetsBeside f before s s')
      (h : Beside Eq f before a b) : OctetsLeft f before (some s, a) (some s', b)

theorem hostIpv4End_beside {s s' : HostIpv4State σ} (hs : OctetsBeside f before s s')
    (h : Beside Eq f before a b) :
    (hostIpv4End o s a).1 = (hostIpv4End o s' b).1 ∧
      Beside Eq f before (hostIpv4End o s a).2 (hostIpv4End o s' b).2 := by
  obtain ⟨hsrc, hstored, hoctet, -⟩ := hs
  obtain ⟨hdots, hctx⟩ := h.checkTrailingDots (o := o) s'.src
  rw [hostIpv4End, hostIpv4End, hsrc, hstored, hoctet, hdots]
  dsimp only
  split
  · split
    · split
      · exact ⟨rfl, hctx.setError _⟩
      · exact ⟨rfl, hctx⟩
    · split
      · exact ⟨rfl, hctx.setError _⟩
      · split
        · exact ⟨rfl, hctx.setError _⟩
        · exact ⟨rfl, hctx⟩
  · exact ⟨rfl, hctx⟩

theorem hostIpv4Step_beside {s s' : HostIpv4State σ} (hs : OctetsBeside f before s s') :
    Simulates (FlowRelated (OctetsBeside f before) (OctetsLeft f before)) (hostIpv4Step o s)
      (hostIpv4Step o s') := by
  obtain ⟨hsrc, hstored, hoctet, hctx⟩ := hs
  rw [hostIpv4Step, hostIpv4Step, hsrc, hstored]
  cases hderef : deref s'.src with
  | error fault => exact .fault _ _
  | ok c =>
      rw [ok_bind, ok_bind]
      dsimp only
      cases readOctet o (octetBase o s'.src).1 0 (octetBase o s'.src).2 with
      | none => exact .ok (.done (.none (hctx.setError .ipInvalidCharacter)))
      | some r =>
          obtain ⟨octet, src⟩ := r
          dsimp only
          generalize hwarns : ((o.allowIpv4HexOctets || o.allowIpv4OctalOctets) &&
            (octetBase o s'.src).1 != 10 && octet != 0) = warns
          have hwarned : Beside Eq f before
              (if warns = true then s.ctx.setWarning .ipv4NonDecimalOctet else s.ctx)
              (if warns = true then s'.ctx.setWarning .ipv4NonDecimalOctet else s'.ctx) := by
            split
            · exact hctx.setWarning .ipv4NonDecimalOctet
            · exact hctx
          split
          · exact .ok (.done (.some ⟨rfl, rfl, rfl, hwarned⟩ hwarned))
          · split
            · exact .ok (.done (.some ⟨rfl, rfl, rfl, hwarned⟩ hwarned))
            · split
              · exact .ok (.done (.none (hwarned.setError .ipInvalidOctetRange)))
              · split
                · exact .fault _ _
                · exact .ok (.next ⟨rfl, rfl, rfl, hwarned⟩)

theorem Beside.parseHostIpv4 (h : Beside Eq f before a b) (host : List Char) :
    Simulates (fun r r' => r.1 = r'.1 ∧ Beside Eq f before r.2 r'.2) (parseHostIpv4 o host a)
      (parseHostIpv4 o host b) := by
  have hstart : OctetsBeside f before ⟨host, [], 0, a⟩ ⟨host, [], 0, b⟩ := ⟨rfl, rfl, rfl, h⟩
  rw [Uri.parseHostIpv4, Uri.parseHostIpv4]
  split
  · exact .ok ⟨rfl, h.setError .ipBadEnding⟩
  · split
    · exact .ok (hostIpv4End_beside hstart h)
    · refine (loop_simulates (OctetsBeside f before) (OctetsLeft f before)
        (fun s s' hs => hostIpv4Step_beside hs) hstart _).bind fun r r' hr => ?_
      cases hr with
      | none h => exact .ok ⟨rfl, h⟩
      | some hs h => exact .ok (hostIpv4End_beside hs h)

theorem skipLast_beside (h : EncoderBeside Eq f before e e') (skipLastChar : Bool) :
    Simulates (Beside Eq f before) (skipLast skipLastChar e) (skipLast skipLastChar e') := by
  rw [skipLast, skipLast]
  split
  · exact (h.ignoreCharacter 1).bind fun e e' he => .ok he.ctx
  · exact .ok h.ctx

theorem authorityHostEnd_beside (hf : BesideHost O f)
    (hfronts : OctetFronts before.1.reverse before.2.reverse)
    (h : HostBeside Eq f before s s') (skipLastChar : Bool) :
    Simulates (Beside Eq f before) (authorityHostEnd o O s skipLastChar)
      (authorityHostEnd o O s' skipLastChar) := by
  have hstore {e e' : ComponentEncoder σ} (he : EncoderBeside Eq f before e e') :
      Simulates (Beside Eq f before)
        (skipLast skipLastChar (setValue O .host (endSegment O .host e)))
        (skipLast skipLastChar (setValue O .host (endSegment O .host e'))) :=
    skipLast_beside ((he.endSegment hf).setValue hf) skipLastChar
  rw [authorityHostEnd, authorityHostEnd, h.hostBegin]
  refine (h.isPossibleEndsWithIpv4 hfronts).bind fun r r' hr => ?_
  obtain ⟨hfound, hctx⟩ := hr
  have hcoder : EncoderBeside Eq f before { s.coder with ctx := r.2 }
      { s'.coder with ctx := r'.2 } := ⟨hctx, h.coder.beg⟩
  rw [hfound]
  split
  · dsimp only
    rw [hctx.pos]
    refine (hctx.parseHostIpv4 (slice s'.hostBegin r'.2.pos)).bind fun r r' hr => ?_
    obtain ⟨hoctets, hctx⟩ := hr
    have hcoder : EncoderBeside Eq f before { s.coder with ctx := r.2 }
        { s'.coder with ctx := r'.2 } := ⟨hctx, h.coder.beg⟩
    rw [hoctets]
    cases r'.1 with
    | none => exact .ok hctx
    | some octets =>
        dsimp only
        split
        · have hclear : O.clear .host r.2.out = f (O.clear .host r'.2.out) := by
            rw [hctx.out, hf.clear .host (.inl rfl)]
          exact skipLast_beside (((hcoder.setOut hclear).startSegment hf).appendTo hf
            (ipv4Text octets)) skipLastChar
        · exact hstore hcoder
  · exact hstore hcoder

theorem authorityLoop_beside (hf : BesideHost O f) (authorityBegin authorityBegin' : List Char)
    {rest : List Char} (h : InHostBeside f before rest s s') (n : ℕ) :
    Simulates (ExitBeside f before)
      (loop (authorityStep o O true authorityBegin) .diverges n s)
      (loop (authorityStep o O true authorityBegin') .diverges n s') :=
  loop_simulates (InHostBeside f before rest) (ExitBeside f before)
    (fun _ _ hs => authorityStep_beside hf authorityBegin authorityBegin' hs) h n

theorem authorityFinish_beside (hf : BesideHost O f)
    (hfronts : OctetFronts before.1.reverse before.2.reverse) {exit exit' : AuthorityExit σ}
    (h : ExitBeside f before exit exit') :
    Simulates (Beside Eq f before) (authorityFinish o O exit)
      (authorityFinish o O exit') := by
  cases h with
  | broke h skipLastChar => exact authorityHostEnd_beside hf hfronts h skipLastChar
  | returned h => exact .ok h

end HostEnd

end Webpp.Uri
