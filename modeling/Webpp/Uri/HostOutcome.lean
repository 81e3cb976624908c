import Webpp.Uri.Credentials
import Webpp.Uri.HostReading

/-!
# What becomes of a host

Behind the loop of `parse_authority_pieces` a host that ends like an IPv4 address is parsed as
one. Whether it does, and what its octets are, only depends on the text, so that the outcome of
a host is a function of what is read of it.
-/

namespace Webpp.Uri

open ComponentEncoder Loop Webpp.Text

variable {σ τ : Type}

/-! ## Addresses without a context -/

/-- A context with nothing but a text. -/
def textCtx (text : List Char) : Ctx Unit := ⟨text, [], (), .start, .specialScheme⟩

/-- Whether the host of `scheme://host` is found to end like an IPv4 address. -/
def endsLikeIpv4 (o : Options) (scheme host : List Char) : Bool :=
  match isPossibleEndsWithIpv4 o host (textCtx (schemeText scheme ++ host)) with
  | .ok r => r.1
  | .error _ => false

/-- The octets that `parse_host_ipv4` reads of a host, if it accepts it. -/
def octetsOf (o : Options) (host : List Char) : Option (List ℕ) :=
  match parseHostIpv4 o host (textCtx host) with
  | .ok r => r.1
  | .error _ => none

/-- The contexts differ in their warnings only. -/
structure Warned (ctx ctx' : Ctx σ) : Prop where
  beg : ctx'.beg = ctx.beg
  pos : ctx'.pos = ctx.pos
  out : ctx'.out = ctx.out
  value : ctx'.status.value = ctx.status.value

theorem Warned.refl (ctx : Ctx σ) : Warned ctx ctx := ⟨rfl, rfl, rfl, rfl⟩

theorem Warned.setWarning {ctx ctx' : Ctx σ} (h : Warned ctx ctx') (warning : UriWarning) :
    Warned ctx (ctx'.setWarning warning) :=
  ⟨h.beg, h.pos, h.out, h.value⟩

/-- The results are the same, with warnings in the one context or an error. -/
structure Checks {α : Type} (ctx : Ctx σ) (r : Option α × Ctx σ) (r' : Option α × Ctx τ) :
    Prop where
  result : r.1 = r'.1
  warned : r.1 ≠ none → Warned ctx r.2
  error : r.1 = none → r.2.status.hasError = true

section Addresses

variable {o : Options} {ctx ctx₀ : Ctx σ} {ctx' : Ctx τ}

theorem Checks.of_error {α : Type} (ctx : Ctx σ) {c : Ctx σ} (c' : Ctx τ)
    (h : c.status.hasError = true) : Checks (α := α) ctx (none, c) (none, c') :=
  ⟨rfl, fun hne => absurd rfl hne, fun _ => h⟩

theorem pruneDots_text (start : ℕ) (before : List Char) (h : Warned ctx₀ ctx) (ctx' : Ctx τ) :
    Related (fun r r' => r.1 = r'.1 ∧ Warned ctx₀ r.2) (pruneDots o start before ctx)
      (pruneDots o start before ctx') := by
  induction before generalizing ctx ctx' with
  | nil => exact .error _
  | cons c before ih =>
      have hwarned := h.setWarning .ipv4TrailingEmptyOctet
      rw [pruneDots, pruneDots]
      split
      · dsimp only
        split
        · exact .ok ⟨rfl, hwarned⟩
        · split
          · exact ih hwarned _
          · exact .ok ⟨rfl, hwarned⟩
      · exact .ok ⟨rfl, h⟩

theorem isPossibleEndsWithIpv4_text {front read rest : List Char}
    (hbeg : ctx.beg = front ++ (read ++ rest)) (hpos : ctx.pos = rest) :
    Related (fun r r' => r.1 = r'.1 ∧ Warned ctx r.2)
      (isPossibleEndsWithIpv4 o (read ++ rest) ctx)
      (isPossibleEndsWithIpv4 o read (textCtx (front ++ read))) := by
  have hstart : ctx.beg.length - (read ++ rest).length =
      (textCtx (front ++ read)).beg.length - read.length := by
    rw [hbeg, textCtx]
    simp
  have hslice : slice ctx.beg ctx.pos =
      slice (textCtx (front ++ read)).beg (textCtx (front ++ read)).pos := by
    rw [hbeg, hpos, ← List.append_assoc, slice_append]
    exact (slice_nil _).symm
  rw [isPossibleEndsWithIpv4, isPossibleEndsWithIpv4, hstart, hslice]
  refine (pruneDots_text _ _ (Warned.refl ctx) _).bind fun r r' hr => ?_
  obtain ⟨hresult, hwarned⟩ := hr
  rw [hresult]
  cases r'.1 with
  | none => exact .ok ⟨rfl, hwarned⟩
  | some before =>
      dsimp only
      cases endsWithOctet _ before false with
      | error fault => exact .error fault
      | ok found => exact .ok ⟨rfl, hwarned⟩

theorem checkTrailingDots_text (src : List Char) (h : Warned ctx₀ ctx) (ctx' : Ctx τ) :
    (checkTrailingDots o src ctx).1 = (checkTrailingDots o src ctx').1 ∧
      ((checkTrailingDots o src ctx).1 = true → Warned ctx₀ (checkTrailingDots o src ctx).2) ∧
      ((checkTrailingDots o src ctx).1 = false →
        (checkTrailingDots o src ctx).2.status.hasError = true) := by
  rw [checkTrailingDots, checkTrailingDots]
  split
  · split
    · split
      · exact ⟨rfl, fun _ => h, fun hfalse => absurd hfalse.symm Bool.false_ne_true⟩
      · exact ⟨rfl, fun htrue => absurd htrue Bool.false_ne_true, fun _ => rfl⟩
    · split
      · exact ⟨rfl, fun _ => h.setWarning _, fun hfalse => absurd hfalse.symm Bool.false_ne_true⟩
      · exact ⟨rfl, fun htrue => absurd htrue Bool.false_ne_true, fun _ => rfl⟩
  · exact ⟨rfl, fun _ => h, fun hfalse => absurd hfalse.symm Bool.false_ne_true⟩

/-- The loops over the octets are at the same place. -/
structure SameOctets (ctx : Ctx σ) (s : HostIpv4State σ) (s' : HostIpv4State τ) : Prop where
  src : s.src = s'.src
  stored : s.stored = s'.stored
  octet : s.octet = s'.octet
  warned : Warned ctx s.ctx

theorem hostIpv4End_text {s : HostIpv4State σ} {s' : HostIpv4State τ} (hs : SameOctets ctx₀ s s')
    (h : Warned ctx₀ ctx) (ctx' : Ctx τ) :
    Checks ctx₀ (hostIpv4End o s ctx) (hostIpv4End o s' ctx') := by
  obtain ⟨hdots, hwarned, herror⟩ := checkTrailingDots_text (o := o) s'.src h ctx'
  rw [hostIpv4End, hostIpv4End, hs.src, hs.stored, hs.octet, ← hdots]
  dsimp only
  cases hr : (checkTrailingDots o s'.src ctx).1 with
  | false => exact .of_error ctx₀ _ (herror hr)
  | true =>
      have hsome (octets : List ℕ) : Checks ctx₀ (some octets, (checkTrailingDots o s'.src ctx).2)
          (some octets, (checkTrailingDots o s'.src ctx').2) :=
        ⟨rfl, fun _ => hwarned hr, fun hnone => absurd hnone (Option.some_ne_none _)⟩
      rw [if_pos rfl, if_pos rfl]
      split
      · split
        · exact .of_error ctx₀ _ rfl
        · exact hsome _
      · split
        · exact .of_error ctx₀ _ rfl
        · split
          · exact .of_error ctx₀ _ rfl
          · exact hsome _

/-- What the loops leave. -/
inductive OctetsRead (ctx : Ctx σ) :
    Option (HostIpv4State σ) × Ctx σ → Option (HostIpv4State τ) × Ctx τ → Prop where
  | refused {c : Ctx σ} (c' : Ctx τ) (h : c.status.hasError = true) :
      OctetsRead ctx (none, c) (none, c')
  | read {s : HostIpv4State σ} {s' : HostIpv4State τ} (hs : SameOctets ctx s s') {c : Ctx σ}
      (h : Warned ctx c) (c' : Ctx τ) : OctetsRead ctx (some s, c) (some s', c')

theorem hostIpv4Step_text {s : HostIpv4State σ} {s' : HostIpv4State τ}
    (hs : SameOctets ctx₀ s s') :
    Related (FlowRelated (SameOctets ctx₀) (OctetsRead ctx₀)) (hostIpv4Step o s)
      (hostIpv4Step o s') := by
  by_cases hsrc : s'.src = []
  · rw [hostIpv4Step, hostIpv4Step, hs.src, hsrc]
    exact .error _
  · have hsrc' : s.src ≠ [] := by rwa [hs.src]
    cases hoctet : octetAt o s'.src with
    | none =>
        rw [hostIpv4Step_refused hsrc' (by rw [hs.src, hoctet]), hostIpv4Step_refused hsrc hoctet]
        exact .ok (.done (.refused _ rfl))
    | some r =>
        rw [hostIpv4Step_read hsrc' (by rw [hs.src, hoctet]), hostIpv4Step_read hsrc hoctet,
          hs.src, hs.stored]
        have hwarned : Warned ctx₀ (octetCtx o (octetBase o s'.src).1 r.1 s.ctx) := by
          rw [octetCtx]
          split
          · exact hs.warned.setWarning _
          · exact hs.warned
        have hsame (src : List Char) (stored : List ℕ) : SameOctets ctx₀
            (⟨src, stored, r.1, octetCtx o (octetBase o s'.src).1 r.1 s.ctx⟩ : HostIpv4State σ)
            ⟨src, stored, r.1, octetCtx o (octetBase o s'.src).1 r.1 s'.ctx⟩ :=
          ⟨rfl, rfl, rfl, hwarned⟩
        rw [afterOctet, afterOctet]
        split
        · exact .ok (.done (.read (hsame r.2 s'.stored) hwarned _))
        · split
          · exact .ok (.done (.read (hsame ('.' :: r.2) s'.stored) hwarned _))
          · split
            · exact .ok (.done (.refused _ rfl))
            · split
              · exact .error _
              · exact .ok (.next (hsame r.2 (s'.stored ++ [r.1])))

theorem parseHostIpv4_text (host : List Char) (ctx : Ctx σ) (ctx' : Ctx τ) :
    Related (Checks ctx) (parseHostIpv4 o host ctx) (parseHostIpv4 o host ctx') := by
  have hstart : SameOctets ctx (⟨host, [], 0, ctx⟩ : HostIpv4State σ) ⟨host, [], 0, ctx'⟩ :=
    ⟨rfl, rfl, rfl, .refl ctx⟩
  rw [parseHostIpv4, parseHostIpv4]
  split
  · exact .ok (.of_error ctx _ rfl)
  · split
    · exact .ok (hostIpv4End_text hstart (.refl ctx) ctx')
    · refine (loop_related (SameOctets ctx) (OctetsRead ctx)
        (fun s s' hs => hostIpv4Step_text hs) hstart _).bind fun r r' hr => ?_
      cases hr with
      | refused c' herror => exact .ok (.of_error ctx c' herror)
      | read hs hwarned c' => exact .ok (hostIpv4End_text hs hwarned c')

end Addresses

/-! ## The end of the host -/

/-- The hostname that a run without an error leaves. -/
def accepted (O : Output σ) : Run (Ctx σ) → Option (List Char)
  | .ok ctx => if ctx.status.hasError then none else some (hostname O ctx.out)
  | .error _ => none

/-- What becomes of a host of which `text` is to be stored. -/
def hostOutcome (o : Options) (O : Output σ) (scheme read text : List Char) :
    Option (List Char) :=
  if endsLikeIpv4 o scheme read then
    (octetsOf o read).map fun octets => if O.isModifiable then ipv4Text octets else text
  else some text

/-- A piece of the input that is set as the host is the host. -/
def SetsHost (O : Output σ) (start : Ctx σ) : Prop :=
  O.isModifiable = false → O.isSegregated = false → ∀ read pos, start.pos = read ++ pos →
    O.view .host (O.setValue .host start.pos pos start.out) = read

section End

variable {o : Options} {O : Output σ} {start ctx : Ctx σ} {scheme read text : List Char}
  {e : ComponentEncoder σ} {s : AuthorityState σ}

theorem accepted_of_error (h : ctx.status.hasError = true) : accepted O (.ok ctx) = none := by
  rw [accepted, if_pos h]

theorem accepted_of_valid (h : ctx.status.hasError = false) :
    accepted O (.ok ctx) = some (hostname O ctx.out) := by
  rw [accepted, if_neg (by rw [h]; exact Bool.false_ne_true)]

theorem HasRead.withCtx (h : HasRead O start read text e) (hctx : Warned e.ctx ctx) :
    HasRead O start read text { e with ctx := ctx } := by
  obtain ⟨hbeg, hpos, hout, -⟩ := hctx
  refine ⟨hbeg.trans h.beg, ?_, ?_, ?_, h.copied, ?_, ?_⟩
  · rw [hpos]
    exact h.pos
  · rw [hout]
    exact h.scheme
  · rw [hout]
    exact h.written
  · rw [hout]
    exact h.untouched
  · rw [hout, hpos]
    exact h.segments

theorem HasRead.stored (hO : StoresHost O) (hsets : SetsHost O start)
    (h : HasRead O start read text e) :
    hostname O (setValue O .host (ComponentEncoder.endSegment O .host e)).ctx.out = text := by
  rw [ComponentEncoder.endSegment, endSegmentOf, isVec_host, setValue, setValueOf, isSeg_host]
  cases hmodifiable : O.isModifiable with
  | true =>
      rw [Bool.not_true, Bool.and_false, Bool.and_false, if_neg Bool.false_ne_true,
        if_neg Bool.false_ne_true]
      exact (h.written hmodifiable).1
  | false =>
      rw [h.copied hmodifiable, Bool.not_false, Bool.and_true, Bool.and_true]
      cases hsegregated : O.isSegregated with
      | true =>
          obtain ⟨segment, hbeg, hjoin⟩ := h.segments hmodifiable hsegregated
          have hslice : slice e.beg e.ctx.pos = segment := by
            rw [hbeg, slice_append]
          rw [Bool.not_true, if_neg Bool.false_ne_true, if_pos rfl, hostname, if_pos hsegregated]
          show ['.'].intercalate (O.segments .host (O.editSegments .host _ e.ctx.out)) = read
          rw [hO.segments_edit hsegregated, hslice, hjoin]
      | false =>
          obtain ⟨hout, hbeg⟩ := h.untouched hmodifiable hsegregated
          rw [Bool.not_false, if_pos rfl, if_neg Bool.false_ne_true, hostname,
            if_neg (by rw [hsegregated]; exact Bool.false_ne_true)]
          show O.view .host (O.setValue .host e.beg e.ctx.pos e.ctx.out) = read
          rw [hout, hbeg]
          exact hsets hmodifiable hsegregated read e.ctx.pos h.pos

theorem accepted_storeHost (hO : StoresHost O) (hsets : SetsHost O start)
    (h : HasRead O start read text { s.coder with ctx := ctx })
    (hvalid : ctx.status.hasError = false) :
    accepted O (storeHost O s false ctx) = some text := by
  have hmoved := setValue_endSegment_movedTo O .host { s.coder with ctx := ctx }
  have hstatus : (setValue O .host (endSegment O .host
      { s.coder with ctx := ctx })).ctx.status.hasError = false := by
    rw [Status.hasError, hmoved.value]
    exact hvalid
  rw [storeHost, skipLast, if_neg Bool.false_ne_true]
  show accepted O (.ok _) = _
  rw [accepted_of_valid hstatus, h.stored hO hsets]

theorem startSegment_noHost (hO : StoresHost O) (hmodifiable : O.isModifiable = true)
    (h : NoHost O e.ctx.out) :
    hostname O (startSegment O .host e).ctx.out = [] ∧ (O.isSegregated = true →
      O.segments .host (startSegment O .host e).ctx.out ≠ []) := by
  rw [startSegment, isVec_host, hmodifiable, Bool.and_true]
  cases hsegregated : O.isSegregated with
  | true =>
      have hedit := hO.segments_edit hsegregated (fun segments => segments ++ [[]]) e.ctx.out
      rw [h.segments hsegregated] at hedit
      rw [if_pos rfl, hostname, if_pos hsegregated]
      show ['.'].intercalate (O.segments .host (O.editSegments .host _ e.ctx.out)) = [] ∧
        (true = true → O.segments .host (O.editSegments .host _ e.ctx.out) ≠ [])
      rw [hedit]
      exact ⟨rfl, fun _ => List.cons_ne_nil _ _⟩
  | false =>
      rw [if_neg Bool.false_ne_true, hostname, if_neg (by rw [hsegregated]; decide)]
      exact ⟨h.view hmodifiable hsegregated, fun htrue => absurd htrue Bool.false_ne_true⟩

theorem accepted_address (hO : StoresHost O) (hmodifiable : O.isModifiable = true)
    (octets : List ℕ) (hvalid : ctx.status.hasError = false) :
    accepted O (storeAddress O s false octets ctx) = some (ipv4Text octets) := by
  rw [storeAddress, if_pos hmodifiable, skipLast, if_neg Bool.false_ne_true]
  generalize he : ({ s.coder with ctx := ctx } : ComponentEncoder σ).setOut
    (O.clear .host ctx.out) = e
  have hcleared : NoHost O e.ctx.out := by
    rw [← he, setOut_out]
    exact hO.clear hmodifiable ctx.out
  obtain ⟨hempty, hsegments⟩ := startSegment_noHost hO hmodifiable hcleared
  have hstatus : e.ctx.status = ctx.status := by
    rw [← he]
    rfl
  have hmoved := (startSegment_movedTo O .host e).trans
    (appendTo_movedTo O .host (startSegment O .host e) (ipv4Text octets))
  have herror : (appendTo O .host (ipv4Text octets)
      (startSegment O .host e)).ctx.status.hasError = false := by
    rw [Status.hasError, hmoved.value, hstatus]
    exact hvalid
  show accepted O (.ok _) = _
  rw [accepted_of_valid herror]
  show some (hostname O (O.append .host _ _)) = _
  rw [hostname_append hO hmodifiable _ hsegments, hempty, List.nil_append]

theorem accepted_storeAddress (hO : StoresHost O) (hsets : SetsHost O start) (octets : List ℕ)
    (h : HasRead O start read text { s.coder with ctx := ctx })
    (hvalid : ctx.status.hasError = false) :
    accepted O (storeAddress O s false octets ctx) =
      some (if O.isModifiable then ipv4Text octets else text) := by
  by_cases hmodifiable : O.isModifiable = true
  · rw [if_pos hmodifiable]
    exact accepted_address hO hmodifiable octets hvalid
  · rw [if_neg hmodifiable, storeAddress, if_neg hmodifiable]
    exact accepted_storeHost hO hsets h hvalid

theorem exists_endsLikeIpv4 (o : Options) (scheme host : List Char) :
    ∃ ctx, isPossibleEndsWithIpv4 o host (textCtx (schemeText scheme ++ host)) =
      .ok (endsLikeIpv4 o scheme host, ctx) := by
  have hcolon : PastColon (textCtx (schemeText scheme ++ host)) := by
    rw [PastColon]
    show ':' ∈ slice (schemeText scheme ++ host) []
    rw [slice_nil, schemeText]
    simp
  obtain ⟨r, hr, -⟩ := (isPossibleEndsWithIpv4_safe o host hcolon).exists_ok
  exact ⟨r.2, by rw [endsLikeIpv4, hr]⟩

theorem accepted_hostEnd (hO : StoresHost O) (hsets : SetsHost O start)
    (hbeg : start.beg = schemeText scheme ++ start.pos) (h : HostSoFar O start read text s)
    (hvalid : s.coder.ctx.status.hasError = false) :
    accepted O (authorityHostEnd o O s false) = hostOutcome o O scheme read text := by
  have hfront : s.coder.ctx.beg = schemeText scheme ++ (read ++ s.coder.ctx.pos) := by
    rw [h.coder.beg, hbeg, ← h.coder.pos]
  obtain ⟨c', hends'⟩ := exists_endsLikeIpv4 o scheme read
  have hends := isPossibleEndsWithIpv4_text (o := o) hfront rfl
  rw [hends'] at hends
  rw [authorityHostEnd_eq, hostOutcome, h.hostBegin, h.coder.pos]
  generalize isPossibleEndsWithIpv4 o (read ++ s.coder.ctx.pos) s.coder.ctx = x at hends ⊢
  cases hends with
  | @ok r _ hr =>
      obtain ⟨hfound, hwarned⟩ := hr
      have hvalid' : r.2.status.hasError = false := by
        rw [Status.hasError, hwarned.value]
        exact hvalid
      have hread := h.coder.withCtx hwarned
      rw [ok_bind]
      dsimp only at hfound
      rw [hfound]
      split
      · have haddress := parseHostIpv4_text (o := o) read r.2 (textCtx read)
        rw [hwarned.pos, slice_append, octetsOf]
        generalize parseHostIpv4 o read r.2 = x at haddress ⊢
        generalize parseHostIpv4 o read (textCtx read) = y at haddress ⊢
        cases haddress with
        | error fault => rfl
        | @ok q q' hq =>
            obtain ⟨octets, c⟩ := q
            obtain ⟨octets', c''⟩ := q'
            obtain ⟨hresult, hkept, herror⟩ := hq
            dsimp only at hresult hkept herror
            subst hresult
            rw [ok_bind]
            cases octets with
            | none => exact accepted_of_error (herror rfl)
            | some octets =>
                have hmoved := hkept (Option.some_ne_none _)
                have hvalid'' : c.status.hasError = false := by
                  rw [Status.hasError, hmoved.value]
                  exact hvalid'
                exact accepted_storeAddress hO hsets octets (hread.withCtx hmoved) hvalid''
      · exact accepted_storeHost hO hsets hread hvalid'

end End

/-! ## The last round -/

/-- What follows a round with which the loop ends. -/
def finishFlow (o : Options) (O : Output σ) : AuthorityFlow σ → Run (Ctx σ)
  | .done exit => authorityFinish o O exit
  | .next _ => .error .diverges

/-- The round is the last one, and `r` becomes of the host. -/
structure EndsWithHost (o : Options) (O : Output σ) (round : Run (AuthorityFlow σ))
    (r : Option (List Char)) : Prop where
  last : ∀ s, round ≠ .ok (.next s)
  outcome : accepted O (round >>= finishFlow o O) = r

/-- What becomes of a host at its end. -/
def endOutcome (o : Options) (O : Output σ) (scheme read text : List Char) :
    Option (List Char) :=
  if read = [] ∧ o.emptyHostIsError = true then none else hostOutcome o O scheme read text

/-- What becomes of a host that has the character `c` behind what is read, if the loop does not
go on there. -/
def stopOutcome (o : Options) (O : Output σ) (scheme read text : List Char) (c : Char) :
    Option (List Char) :=
  if c = '\x00' ∧ o.eofIsValid = true then endOutcome o O scheme read text else none

section Last

variable {o : Options} {O : Output σ} {start ctx : Ctx σ} {scheme read text rest : List Char}
  {s : AuthorityState σ} {c : Char} {r : Option (List Char)}

theorem endsWithHost_of_done {exit : AuthorityExit σ}
    (h : accepted O (authorityFinish o O exit) = r) : EndsWithHost o O (.ok (.done exit)) r where
  last _ heq := by cases heq
  outcome := h

theorem endsWithHost_of_error (h : ctx.status.hasError = true) :
    EndsWithHost o O (.ok (.done (.returned ctx))) none :=
  endsWithHost_of_done (accepted_of_error h)

theorem endsWithHost_of_bind {x : Run (Ctx σ)} (h : accepted O x = r) :
    EndsWithHost o O (x >>= fun ctx => pure (.done (.returned ctx))) r := by
  cases x with
  | error fault =>
      rw [error_bind]
      exact ⟨fun _ heq => (by cases heq), h⟩
  | ok ctx => exact endsWithHost_of_done h

theorem hostSoFar_first (hO : StoresHost O) (h : NoHost O start.out) :
    HostSoFar O start [] [] ⟨startSegment O .host (ofCtx start), start.pos, [], false⟩ := by
  refine ⟨?_, rfl, rfl⟩
  have hmoved := startSegment_movedTo O .host (ofCtx start)
  cases hmodifiable : O.isModifiable with
  | true =>
      obtain ⟨hempty, hsegments⟩ :=
        startSegment_noHost hO hmodifiable (e := ofCtx start) h
      refine .of_modifiable hmodifiable hmoved.beg ?_ ?_ hempty hsegments
      · exact hmoved.pos.symm
      · rw [startSegment]
        split
        · exact hO.scheme_edit _ _
        · rfl
  | false =>
      rw [startSegment, hmodifiable, Bool.and_false, if_neg Bool.false_ne_true]
      refine .of_not_modifiable hmodifiable rfl rfl rfl rfl (fun _ _ => ⟨rfl, rfl⟩)
        fun hsegregated => ⟨[], rfl, ?_⟩
      show ['.'].intercalate (O.segments .host start.out ++ [[]]) = []
      rw [h.segments hsegregated]
      rfl

theorem ComesTo.accepted_pieces
    (h : ComesTo o O start.pos start ⟨startSegment O .host (ofCtx start), start.pos, [], false⟩
      read text)
    (hends : ∀ s, HostSoFar O start read text s →
      EndsWithHost o O (deref s.coder.ctx.pos >>= authoritySwitch o O true start.pos s) r) :
    accepted O (parseAuthorityPieces o O true start) = r := by
  obtain ⟨t, s, hleads, hround, hs⟩ := h
  obtain ⟨hlast, houtcome⟩ := hends s hs
  have hleft : AuthorityState.left ⟨startSegment O .host (ofCtx start), start.pos, [], false⟩ <
      start.pos.length + 1 := by
    rw [AuthorityState.left, (startSegment_movedTo O .host (ofCtx start)).pos]
    exact Nat.lt_succ_self _
  obtain ⟨n, hn, hloop⟩ := hleads _ hleft
  obtain ⟨n, rfl⟩ := Nat.exists_eq_add_of_le' (Nat.lt_of_le_of_lt (Nat.zero_le _) hn)
  rw [parseAuthorityPieces_eq, hloop, loop, hround]
  rw [← hround] at hlast houtcome ⊢
  rw [← houtcome]
  cases hflow : authorityStep o O true start.pos t with
  | error fault => rfl
  | ok flow =>
      cases flow with
      | next s' => exact absurd hflow (hlast s')
      | done exit => rfl

theorem HostSoFar.length_eq_iff (h : HostSoFar O start read text s) :
    s.coder.ctx.pos.length = s.hostBegin.length ↔ read = [] := by
  rw [h.hostBegin, h.coder.pos, List.length_append, Nat.right_eq_add]
  exact List.length_eq_zero_iff

theorem HostSoFar.breaks (hO : StoresHost O) (hsets : SetsHost O start)
    (hbeg : start.beg = schemeText scheme ++ start.pos) (h : HostSoFar O start read text s)
    (hpos : s.coder.ctx.pos = c :: rest) {value : UriStatus} (hvalue : value.hasError = false) :
    EndsWithHost o O (.ok (authorityBreak o true (s.setCoder (s.coder.setValid value)) false))
      (endOutcome o O scheme read text) := by
  have hs := h.setCoder (h.coder.setValid value)
  have hend : accepted O (authorityHostEnd o O (s.setCoder (s.coder.setValid value)) false) =
      hostOutcome o O scheme read text := accepted_hostEnd hO hsets hbeg hs hvalue
  rw [authorityBreak, endOutcome, if_neg (by rw [hs.noCredentials]; exact Bool.false_ne_true),
    Bool.and_true]
  by_cases hread : read = []
  · rw [if_pos (hs.length_eq_iff.mpr hread)]
    by_cases hempty : o.emptyHostIsError = true
    · rw [if_pos hempty, if_pos ⟨hread, hempty⟩]
      exact endsWithHost_of_error rfl
    · have hne : ¬(s.setCoder (s.coder.setValid value)).coder.ctx.pos = [] := by
        show ¬s.coder.ctx.pos = []
        rw [hpos]
        exact List.cons_ne_nil _ _
      rw [if_neg hempty, if_neg hne, if_neg fun hboth => hempty hboth.2]
      exact endsWithHost_of_done hend
  · rw [if_neg fun hlength => hread (hs.length_eq_iff.mp hlength),
      if_neg fun hboth => hread hboth.1]
    exact endsWithHost_of_done hend

theorem HostSoFar.endsAtSlash (hO : StoresHost O) (hsets : SetsHost O start)
    (hbeg : start.beg = schemeText scheme ++ start.pos) (h : HostSoFar O start read text s)
    (hpos : s.coder.ctx.pos = '/' :: rest) :
    EndsWithHost o O (deref s.coder.ctx.pos >>= authoritySwitch o O true start.pos s)
      (endOutcome o O scheme read text) := by
  have hswitch : authoritySwitch o O true start.pos s '/' =
      .ok (authorityBreak o true (s.setCoder (s.coder.setValid .validPath)) false) := by
    rw [authoritySwitch, authoritySlash, if_neg (by rw [h.noCredentials]; decide)]
    rfl
  rw [hpos, deref_cons, ok_bind, hswitch]
  exact h.breaks hO hsets hbeg hpos rfl

/-! ### Brackets -/

theorem colon_mem_address {e : Ip.Ending} {a : List Char} {bytes : List UInt8}
    (h : Ip.Address e a bytes) : ':' ∈ a := by
  cases h with
  | gap _ _ _ _ => simp
  | full hgroups hlength =>
      cases hgroups with
      | group hgroup => cases hlength
      | quad hquad =>
          rw [hquad] at hlength
          cases hlength
      | cons hgroup hgroups => simp

theorem exists_bracket {text rest : List Char}
    (hstatus : (Ip.inetPton6 text (List.replicate 16 0) ']').status = .validSpecial)
    (hsrc : (Ip.inetPton6 text (List.replicate 16 0) ']').src = ']' :: rest) :
    ∃ inside, text = inside ++ ']' :: rest ∧ ':' ∈ inside := by
  obtain ⟨e, a, rest', htext, ha, hstops⟩ :=
    Ip.address_of_inetPton6 Ip.not_isAddressChar_bracket List.length_replicate
      (show (Ip.inetPton6 text (List.replicate 16 0) ']').status.isValid = true by
        rw [hstatus]
        rfl)
  have hcolon := colon_mem_address ha
  rw [hstatus, hsrc] at hstops
  cases hstops with
  | special => exact ⟨a, htext, hcolon⟩
  | colon => exact ⟨a ++ [':'], by rw [htext, List.append_assoc]; rfl, by simp⟩

theorem accepted_parseHostIpv6 (hpos : ctx.pos = '[' :: rest)
    (hbracket : ∀ inside behind, rest = inside ++ ']' :: behind → ':' ∉ inside) :
    accepted O (parseHostIpv6 O ctx) = none := by
  rw [parseHostIpv6]
  split
  · exact accepted_of_error rfl
  · rw [hpos, advance_one_cons, ok_bind]
    have hread : ∀ rest', (Ip.inetPton6 rest (List.replicate 16 0) ']').status = .validSpecial →
        (Ip.inetPton6 rest (List.replicate 16 0) ']').src ≠ ']' :: rest' := by
      intro rest' hstatus hsrc
      obtain ⟨inside, htext, hcolon⟩ := exists_bracket hstatus hsrc
      exact hbracket inside rest' htext hcolon
    generalize Ip.inetPton6 rest (List.replicate 16 0) ']' = q at hread
    dsimp only
    split
    · exact accepted_of_error rfl
    · rename_i hstatus
      cases hsrc : q.src with
      | nil => rfl
      | cons d behind =>
          rw [deref_cons, ok_bind]
          split
          · rename_i hd
            rw [hd] at hsrc
            exact absurd hsrc (hread behind hstatus)
          · exact accepted_of_error rfl
    · rename_i hvalid hspecial
      refine accepted_of_error ?_
      show (UriStatus.ofInetPton6 q.status).hasError = true
      cases hstatus : q.status with
      | valid => exact absurd hstatus hvalid
      | validSpecial => exact absurd hstatus hspecial
      | _ => rfl

/-- The character ends the loop, and it is none behind a host. -/
def StopsInside (o : Options) (O : Output σ) (c : Char) : Prop :=
  c ∉ [':', '@', '/', '\\', '?', '#'] ∧ passedOver o O c = none

theorem passedOver_dot (o : Options) (O : Output σ) : passedOver o O '.' = some ['.'] := by
  rw [passedOver, show upperAlpha '.' = false from rfl, Bool.and_false,
    if_neg Bool.false_ne_true, if_pos rfl]

theorem not_ignored_of_passedOver (hc : isTabOrNewline c = true)
    (hpassed : passedOver o O c = none) : ¬o.ignoreTabsOrNewlines = true := by
  intro hignore
  have hupper : upperAlpha c = false := by
    have hall : ∀ c ∈ ['\t', '\r', '\n'], upperAlpha c = false := by decide
    exact hall c (mem_of_isTabOrNewline hc)
  have hdot : c ≠ '.' := by
    rintro rfl
    exact absurd hc (by decide)
  rw [passedOver, hupper, Bool.and_false, if_neg Bool.false_ne_true, if_neg hdot, hc, hignore,
    if_pos (by decide)] at hpassed
  cases hpassed

/-- The loop is left at a `\0`. -/
theorem HostSoFar.endsAtNull (hO : StoresHost O) (hsets : SetsHost O start)
    (hbeg : start.beg = schemeText scheme ++ start.pos) (h : HostSoFar O start read text s)
    (hpos : s.coder.ctx.pos = c :: rest) :
    EndsWithHost o O (.ok (authorityNull o true s))
      (stopOutcome o O scheme read text '\x00') := by
  rw [authorityNull, if_neg (by rw [h.noCredentials]; decide), stopOutcome]
  by_cases heof : o.eofIsValid = true
  · rw [if_pos heof, if_pos (show '\x00' = '\x00' ∧ o.eofIsValid = true from ⟨rfl, heof⟩)]
    split
    · rename_i hboth
      rw [endOutcome, if_pos ⟨h.length_eq_iff.mp hboth.2, hboth.1⟩]
      exact endsWithHost_of_error rfl
    · exact h.breaks hO hsets hbeg hpos rfl
  · rw [if_neg heof, if_neg fun hboth => heof hboth.2]
    exact endsWithHost_of_error rfl

theorem HostSoFar.stops (hO : StoresHost O) (hsets : SetsHost O start)
    (hbeg : start.beg = schemeText scheme ++ start.pos) (h : HostSoFar O start read text s)
    (hpos : s.coder.ctx.pos = c :: rest) (hc : StopsInside o O c)
    (hbracket : ∀ inside behind, rest = inside ++ ']' :: behind → ':' ∉ inside) :
    EndsWithHost o O (deref s.coder.ctx.pos >>= authoritySwitch o O true start.pos s)
      (stopOutcome o O scheme read text c) := by
  obtain ⟨hmem, hpassed⟩ := hc
  have hnone {d : Char} (hd : d ≠ '\x00') : stopOutcome o O scheme read text d = none :=
    if_neg fun hboth => hd hboth.1
  have htab (htab : isTabOrNewline c = true) : EndsWithHost o O
      (if o.ignoreTabsOrNewlines = true then do
        let e ← (s.coder.setWarning .invalidCharacter).ignoreCharacter
        pure (.next (s.setCoder e))
      else pure (.done (.returned (s.coder.ctx.setError (invalidCodePoint true))))) none := by
    rw [if_neg (not_ignored_of_passedOver htab hpassed)]
    exact endsWithHost_of_error rfl
  rw [hpos, deref_cons, ok_bind, authoritySwitch.eq_def]
  split
  · rw [hnone (by decide)]
    exact endsWithHost_of_bind (accepted_parseHostIpv6 hpos hbracket)
  · exact absurd (by decide) hmem
  · exact absurd (by decide) hmem
  · exact absurd (by decide) hmem
  · rw [passedOver_dot] at hpassed
    cases hpassed
  · exact absurd (by decide) hmem
  · exact absurd (by decide) hmem
  · rw [hnone (by decide)]
    exact endsWithHost_of_error rfl
  · rw [hnone (by decide)]
    exact htab rfl
  · rw [hnone (by decide)]
    exact htab rfl
  · rw [hnone (by decide)]
    exact htab rfl
  · exact absurd (by decide) hmem
  · exact h.endsAtNull hO hsets hbeg hpos
  · rename_i hne _
    rw [hnone (by assumption)]
    exact endsWithHost_of_error rfl

end Last

end Webpp.Uri
