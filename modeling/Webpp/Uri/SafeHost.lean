import Webpp.Uri.Host
import Webpp.Uri.Safe

/-!
# Safety of hosts

The decoding of domain names, the search for a number at the end of a host, which goes
backwards over the text, and the parsers of addresses.
-/

namespace Webpp.Uri

open ComponentEncoder Ctx Loop Webpp.Text

variable {σ : Type} {text src : List Char} {ctx : Ctx σ} {o : Options} {q : Pton6State}

/-! ## Decoding -/

/-- Decoding stops at a later position, and not before the end where it says so. -/
theorem decodeUriComponent_spec (chars : AsciiBitmap) (pos : List Char) :
    (decodeUriComponent chars pos).2.1 <:+ pos ∧
      ((decodeUriComponent chars pos).2.2 = true → (decodeUriComponent chars pos).2.1 = []) := by
  fun_induction decodeUriComponent chars pos with
  | case1 => exact ⟨List.suffix_refl _, fun _ => rfl⟩
  | case2 c1 c2 rest d hd r ih =>
      refine ⟨ih.1.trans ?_, ih.2⟩
      exact List.suffix_append ['%', c1, c2] rest
  | case3 c1 c2 rest hd =>
      exact ⟨List.suffix_append ['%', c1] (c2 :: rest), fun h => absurd h Bool.false_ne_true⟩
  | case4 pos hpos => exact ⟨List.suffix_cons .., fun h => absurd h Bool.false_ne_true⟩
  | case5 c pos hc hstop => exact ⟨List.suffix_refl _, fun h => absurd h Bool.false_ne_true⟩
  | case6 c pos hc hstop r ih => exact ⟨ih.1.trans (List.suffix_cons ..), ih.2⟩

/-- The round does not read past the end: what breaks the decoding off is followed by a
character. -/
def TolowerRound (chars : AsciiBitmap) (s : List Char × List Char) : Prop :=
  (decodeUriComponent chars s.2).2.2 = true ∨ (decodeUriComponent chars s.2).2.1 ≠ []

theorem tolowerStep_safe {chars : AsciiBitmap} {start : List Char} {s : List Char × List Char}
    (h : s.2 <:+ start) (hround : TolowerRound chars s) :
    Safe (FlowSat (fun s' => s'.2 <:+ start ∧ s'.2.length < s.2.length)
      (fun r => r.2.1 <:+ start ∧ r.2.2 = r.2.1.isEmpty)) (tolowerStep chars s) := by
  obtain ⟨hsuffix, hend⟩ := decodeUriComponent_spec chars s.2
  rw [TolowerRound] at hround
  rw [tolowerStep]
  split
  · exact ⟨List.nil_suffix, rfl⟩
  · generalize decodeUriComponent chars s.2 = r at hsuffix hend hround
    simp only
    split
    · rename_i hdone
      refine ⟨hsuffix.trans h, ?_⟩
      rw [hend hdone]
      rfl
    · rename_i hdone
      have hne := hround.resolve_left hdone
      obtain ⟨c, rest, hcons⟩ := List.exists_cons_of_ne_nil hne
      rw [hcons] at hsuffix ⊢
      rw [deref_cons, ok_bind]
      split
      · refine ⟨(List.suffix_cons ..).trans (hsuffix.trans h), ?_⟩
        exact Nat.lt_of_lt_of_le (Nat.lt_succ_self _) hsuffix.length_le
      · exact ⟨hsuffix.trans h, rfl⟩

/-- No round of `decode_or_tolower` reads past the end. -/
def TolowerRounds (O : Output σ) (policyChars : AsciiBitmap) (pos : List Char) : Prop :=
  O.isModifiable = true →
    ∀ s, Reaches (tolowerStep policyChars) ([], pos) s → TolowerRound policyChars s

theorem decodeOrTolower_safe {O : Output σ} {comp : Components} {policyChars : AsciiBitmap}
    {e : ComponentEncoder σ} (hrounds : TolowerRounds O policyChars e.ctx.pos) :
    Safe (fun r => ∃ pos, pos <:+ e.ctx.pos ∧ MovedTo pos e.ctx r.2.ctx ∧ r.1 = pos.isEmpty)
      (decodeOrTolower O comp policyChars e) := by
  rw [decodeOrTolower]
  split
  · rename_i hmodifiable
    refine Sat.bind (P := fun r => r.2.1 <:+ e.ctx.pos ∧ r.2.2 = r.2.1.isEmpty) ?_ fun r hr => ?_
    · exact loop_sat (fun s => s.2 <:+ e.ctx.pos) _ (fun s => s.2.length) (List.suffix_refl _)
        (fun s hreach hs => tolowerStep_safe hs (hrounds hmodifiable s hreach))
        (Nat.lt_succ_self _)
    · exact ⟨r.2.1, hr.1, (appendTo_movedTo O comp e r.1).setPos _, hr.2⟩
  · exact ⟨_, findFirstIn_suffix policyChars e.ctx.pos, (MovedTo.refl e.ctx).setPos _, rfl⟩

/-! ## The end of a host -/

section Backwards

variable {allowed : Fault → Prop} {start : ℕ} {before : List Char}

/-- A scheme ends with a colon, so that going backwards over dots stops. -/
theorem pruneDots_safe (o : Options) (hcolon : ':' ∈ before) (ctx : Ctx σ) :
    Sat allowed (fun r => MovedTo ctx.pos ctx r.2 ∧ ∀ rest, r.1 = some rest → ':' ∈ rest)
      (pruneDots o start before ctx) := by
  induction before generalizing ctx with
  | nil => cases hcolon
  | cons c before ih =>
      have hwarned : MovedTo ctx.pos ctx (ctx.setWarning .ipv4TrailingEmptyOctet) :=
        (MovedTo.refl ctx).setWarning _
      rw [pruneDots]
      split
      · rename_i hdot
        subst hdot
        have hcolon' : ':' ∈ before := (List.mem_cons.mp hcolon).resolve_left (by decide)
        simp only
        split
        · exact ⟨hwarned, fun _ h => absurd h (Option.some_ne_none _).symm⟩
        · split
          · refine (ih hcolon' (ctx.setWarning .ipv4TrailingEmptyOctet)).mono fun r hr => ?_
            exact ⟨hwarned.trans hr.1, hr.2⟩
          · refine ⟨hwarned, ?_⟩
            rintro _ ⟨⟩
            exact hcolon'
      · refine ⟨.refl ctx, ?_⟩
        rintro _ ⟨⟩
        exact hcolon

theorem endsWithOctet_safe (hcolon : ':' ∈ before) (mustBeHex : Bool) :
    Sat allowed (fun _ => True) (endsWithOctet start before mustBeHex) := by
  induction before generalizing mustBeHex with
  | nil => cases hcolon
  | cons c before ih =>
      have htail (hne : c ≠ ':') : ':' ∈ before :=
        (List.mem_cons.mp hcolon).resolve_left hne.symm
      rw [endsWithOctet.eq_def]
      simp only
      split
      · trivial
      · split
        · trivial
        · split
          · rename_i hdigit
            refine ih (htail ?_) mustBeHex
            rintro rfl
            exact absurd hdigit (by decide)
          · split
            · rename_i hx
              have hcolon' : ':' ∈ before := htail (by rcases hx with rfl | rfl <;> decide)
              split
              · trivial
              · split
                · rename_i rest _ _
                  split
                  · trivial
                  · have hmem : ':' ∈ rest :=
                      (List.mem_cons.mp hcolon').resolve_left (by decide)
                    obtain ⟨c', rest', rfl⟩ :=
                      List.exists_cons_of_ne_nil (List.ne_nil_of_mem hmem)
                    trivial
                · trivial
            · split
              · rename_i hdigit
                refine ih (htail ?_) true
                rintro rfl
                exact absurd hdigit (by decide)
              · trivial

end Backwards

/-- The scheme is before the position. -/
def PastColon (ctx : Ctx σ) : Prop := ':' ∈ slice ctx.beg ctx.pos

theorem PastColon.ahead {ctx ctx' : Ctx σ} (h : PastColon ctx) (hbeg : ctx'.beg = ctx.beg)
    (hpos : ctx'.pos <:+ ctx.pos) : PastColon ctx' := by
  rw [PastColon, slice, hbeg]
  exact List.take_subset_take_left ctx.beg (Nat.sub_le_sub_left hpos.length_le _) h

theorem isPossibleEndsWithIpv4_safe {allowed : Fault → Prop} (o : Options)
    (hostBegin : List Char) (hcolon : PastColon ctx) :
    Sat allowed (fun r => MovedTo ctx.pos ctx r.2) (isPossibleEndsWithIpv4 o hostBegin ctx) := by
  rw [isPossibleEndsWithIpv4]
  refine (pruneDots_safe o (List.mem_reverse.mpr hcolon) ctx).bind fun r hr => ?_
  obtain ⟨hmoved, hrest⟩ := hr
  split
  · exact hmoved
  · rename_i before heq
    exact (endsWithOctet_safe (hrest before heq) false).bind fun found _ => hmoved

/-! ## IPv4 hosts -/

/-- What a parser of an address leaves of the context: warnings where it has a result, an
error otherwise. -/
inductive Checked {α : Type} (ctx : Ctx σ) : Option α × Ctx σ → Prop where
  | some {ctx' : Ctx σ} (h : MovedTo ctx.pos ctx ctx') (a : α) : Checked ctx (some a, ctx')
  | none {ctx' : Ctx σ} (h : Lowers 1 ctx ctx') : Checked ctx (none, ctx')

theorem Checked.error {α : Type} {ctx ctx' : Ctx σ} (h : MovedTo ctx.pos ctx ctx')
    {value : UriStatus} (hvalue : value.rank < 1) :
    Checked ctx ((Option.none : Option α), ctx'.setError value) := by
  refine .none ⟨h.beg, ?_, hvalue⟩
  rw [setError_pos, h.pos]

theorem octetBase_suffix (o : Options) (src : List Char) : (octetBase o src).2 <:+ src := by
  rw [octetBase.eq_def]
  split
  · rename_i rest
    simp only
    split
    · split
      · rename_i c digits
        split
        · exact List.suffix_append ['0', c] digits
        · exact List.suffix_cons ..
      · exact List.suffix_append ['0'] []
    · exact List.suffix_refl _
  · exact List.suffix_refl _

theorem readOctet_length {base octet octet' : ℕ} {src src' : List Char}
    (h : readOctet o base octet src = some (octet', src')) (hne : src' ≠ []) :
    src'.length < src.length := by
  induction src generalizing octet with
  | nil =>
      rw [readOctet] at h
      cases h
      exact absurd rfl hne
  | cons c src ih =>
      unfold readOctet at h
      extract_lets digit at h
      split at h
      · split at h
        · cases h
          exact Nat.lt_succ_self _
        · cases h
      · exact Nat.lt_succ_of_lt (ih h)

/-- The round stores no fifth octet. -/
def HostIpv4Round (o : Options) (s : HostIpv4State σ) : Prop :=
  ∀ octet src, readOctet o (octetBase o s.src).1 0 (octetBase o s.src).2 = some (octet, src) →
    src ≠ [] → src.head? ≠ some '.' → octet ≤ 255 → s.stored.length ≠ 4

/-- What the rounds of `parse_host_ipv4` keep: there is another octet to read. -/
structure HostIpv4Inv (start : Ctx σ) (s : HostIpv4State σ) : Prop where
  src : s.src ≠ []
  moved : MovedTo start.pos start s.ctx

theorem hostIpv4Step_safe {start : Ctx σ} {s : HostIpv4State σ}
    (h : HostIpv4Inv start s) (hround : HostIpv4Round o s) :
    Safe (FlowSat (fun s' => HostIpv4Inv start s' ∧ s'.src.length < s.src.length)
      (Checked start)) (hostIpv4Step o s) := by
  obtain ⟨hne, hmoved⟩ := h
  obtain ⟨c, rest, hcons⟩ := List.exists_cons_of_ne_nil hne
  rw [hostIpv4Step]
  rw [show deref s.src = .ok c by rw [hcons]; rfl, ok_bind]
  simp only
  split
  · exact .error hmoved Nat.one_pos
  · rename_i octet src heq
    have hwarned : MovedTo start.pos start
        (if ((o.allowIpv4HexOctets || o.allowIpv4OctalOctets) && (octetBase o s.src).1 != 10 &&
            octet != 0) = true then s.ctx.setWarning .ipv4NonDecimalOctet else s.ctx) := by
      split
      · exact hmoved.setWarning _
      · exact hmoved
    generalize (if ((o.allowIpv4HexOctets || o.allowIpv4OctalOctets) &&
      (octetBase o s.src).1 != 10 && octet != 0) = true then
        s.ctx.setWarning .ipv4NonDecimalOctet else s.ctx) = ctx at hwarned
    split
    · exact .some hwarned _
    · rename_i hsrc
      split
      · exact .some hwarned _
      · rename_i hdot
        split
        · exact .error hwarned Nat.one_pos
        · rename_i hrange
          split
          · rename_i hfull
            exact absurd hfull (hround octet src heq hsrc hdot (Nat.le_of_not_lt hrange))
          · refine ⟨⟨hsrc, hwarned⟩, ?_⟩
            exact Nat.lt_of_lt_of_le (readOctet_length heq hsrc)
              (octetBase_suffix o s.src).length_le

theorem checkTrailingDots_spec (o : Options) (src : List Char) (ctx : Ctx σ) :
    ((checkTrailingDots o src ctx).1 = true → MovedTo ctx.pos ctx (checkTrailingDots o src ctx).2) ∧
      ((checkTrailingDots o src ctx).1 = false →
        (checkTrailingDots o src ctx).2 = ctx.setError .ipInvalidCharacter) := by
  rw [checkTrailingDots]
  split
  · split
    · split
      · exact ⟨fun _ => .refl ctx, fun h => absurd h Bool.noConfusion⟩
      · exact ⟨fun h => absurd h Bool.noConfusion, fun _ => rfl⟩
    · split
      · exact ⟨fun _ => (MovedTo.refl ctx).setWarning _, fun h => absurd h Bool.noConfusion⟩
      · exact ⟨fun h => absurd h Bool.noConfusion, fun _ => rfl⟩
  · exact ⟨fun _ => .refl ctx, fun h => absurd h Bool.noConfusion⟩

theorem hostIpv4End_checked {start : Ctx σ} (s : HostIpv4State σ)
    (h : MovedTo start.pos start ctx) : Checked start (hostIpv4End o s ctx) := by
  obtain ⟨hdots, hbroken⟩ := checkTrailingDots_spec o s.src ctx
  rw [hostIpv4End]
  generalize checkTrailingDots o s.src ctx = r at hdots hbroken
  rw [h.pos] at hdots
  simp only
  split
  · rename_i htrue
    have hmoved := h.trans (hdots htrue)
    split
    · split
      · exact .error hmoved Nat.one_pos
      · exact .some hmoved _
    · split
      · exact .error hmoved Nat.one_pos
      · split
        · exact .error hmoved Nat.one_pos
        · exact .some hmoved _
  · rename_i hfalse
    rw [hbroken (Bool.eq_false_iff.mpr hfalse)]
    exact .error h Nat.one_pos

/-- No round of `parse_host_ipv4` stores a fifth octet. -/
def HostIpv4Rounds (o : Options) (host : List Char) (ctx : Ctx σ) : Prop :=
  ∀ s, Reaches (hostIpv4Step o) ⟨host, [], 0, ctx⟩ s → HostIpv4Round o s

theorem parseHostIpv4_safe {host : List Char} (hrounds : HostIpv4Rounds o host ctx) :
    Safe (Checked ctx) (parseHostIpv4 o host ctx) := by
  rw [parseHostIpv4]
  split
  · exact .error (.refl ctx) Nat.one_pos
  · rename_i hne
    split
    · exact hostIpv4End_checked _ (.refl ctx)
    · refine Sat.bind (P := Checked ctx) ?_ fun r hr => ?_
      · exact loop_sat (HostIpv4Inv ctx) _ (fun s => s.src.length) ⟨hne, .refl ctx⟩
          (fun s hreach hs => hostIpv4Step_safe hs (hrounds s hreach)) (Nat.lt_succ_self _)
      · cases hr with
        | some h s => exact hostIpv4End_checked s h
        | none h => exact .none h

/-! ## IPv6 hosts -/

section Ipv6

open Ip

theorem inetPton4Loop_suffix (special : Char) (src : List Char) (sawDigit : Bool) (octets : ℕ)
    (bytes : List UInt8) (out : ℕ) :
    (inetPton4Loop special src sawDigit octets bytes out).src <:+ src := by
  induction src generalizing sawDigit octets bytes out with
  | nil =>
      rw [inetPton4Loop]
      split
      · exact List.suffix_refl _
      · exact List.suffix_refl _
  | cons cur src ih =>
      have hcons : src <:+ cur :: src := List.suffix_cons ..
      rw [inetPton4Loop]
      split
      · simp only
        split
        · exact hcons
        · split
          · exact hcons
          · split
            · split
              · exact hcons
              · exact (ih ..).trans hcons
            · exact (ih ..).trans hcons
      · split
        · split
          · exact hcons
          · exact (ih ..).trans hcons
        · split
          · exact List.suffix_refl _
          · exact List.suffix_refl _

/-- The loop of `inet_pton6` stays in the text, and it stops at the special character if
that is the character it has read last. -/
def ExitInside (text : List Char) : Pton6Exit → Prop
  | .returned r => r.src <:+ text ∧ r.status ≠ .validSpecial
  | .left src q => src <:+ text ∧ (q.curChar = some ']' → src.head? = some ']')

theorem leaveQuad_inside {text : List Char} {r : Pton4}
    (hsrc : r.src <:+ text) (hcur : q.curChar ≠ some ']') : ExitInside text (leaveQuad q r) := by
  rw [leaveQuad.eq_def]
  split
  · exact ⟨hsrc, id⟩
  · exact ⟨hsrc, fun h => absurd h hcur⟩
  all_goals exact ⟨hsrc, by simp⟩

theorem inetPton6Loop_inside (hsrc : src <:+ text)
    (htoken : q.currentToken <:+ text) (hcur : q.curChar ≠ some ']') :
    ExitInside text (inetPton6Loop ']' src q) := by
  induction src generalizing q with
  | nil => exact ⟨hsrc, fun h => absurd h hcur⟩
  | cons cur src ih =>
      have hrest : src <:+ text := (List.suffix_cons ..).trans hsrc
      rw [inetPton6Loop]
      split
      · rename_i digit hdigit
        have hne : some cur ≠ some ']' := by
          rintro h
          cases h
          rw [show hexDigitSafe ']' = none by decide] at hdigit
          cases hdigit
        split
        · exact ⟨hrest, by simp⟩
        · split
          · exact ⟨hrest, by simp⟩
          · exact ih hrest htoken hne
      · split
        · rename_i hcolon
          have hne : some cur ≠ some ']' := by
            rw [hcolon]
            decide
          split
          · split
            · exact ⟨hrest, by simp⟩
            · exact ih hrest hrest hne
          · split
            · exact ⟨hrest, by simp⟩
            · split
              · exact ⟨hrest, by simp⟩
              · exact ih hrest hrest hne
        · split
          · rename_i hdot
            refine leaveQuad_inside ((inetPton4Loop_suffix ..).trans htoken) ?_
            show some cur ≠ some ']'
            rw [hdot.1]
            decide
          · split
            · rename_i hspecial
              exact ⟨hsrc, fun _ => congrArg some hspecial⟩
            · exact ⟨hsrc, by simp⟩

/-- What `inet_pton6` leaves: a position in the text, at the special character if it says so. -/
def Pton6Inside (text : List Char) (r : Pton6) : Prop :=
  r.src <:+ text ∧ (r.status = .validSpecial → r.src.head? = some ']')

theorem concludePton6_inside (hsrc : src <:+ text)
    (hcur : q.curChar = some ']' → src.head? = some ']') :
    Pton6Inside text (concludePton6 ']' src q) := by
  have hconclude (out : ℕ) (bytes : List UInt8) :
      Pton6Inside text
        (if out ≠ ipv6ByteCount then ⟨.badEnding, src, bytes⟩
        else if q.curChar = some ']' then ⟨.validSpecial, src, bytes⟩
        else ⟨.valid, src, bytes⟩) := by
    split
    · exact ⟨hsrc, by simp⟩
    · split
      · rename_i hspecial
        exact ⟨hsrc, fun _ => hcur hspecial⟩
      · exact ⟨hsrc, by simp⟩
  rw [concludePton6]
  split
  · split
    · exact ⟨hsrc, by simp⟩
    · exact hconclude _ _
  · exact hconclude _ _

theorem resume_inside {bytes : List UInt8} (hsrc : src <:+ text) :
    Pton6Inside text (resume ']' src (startPton6 src bytes)) := by
  have hloop : ExitInside text (inetPton6Loop ']' src (startPton6 src bytes)) :=
    inetPton6Loop_inside hsrc hsrc (Option.some_ne_none _).symm
  rw [resume]
  cases hexit : inetPton6Loop ']' src (startPton6 src bytes) with
  | returned r =>
      rw [hexit] at hloop
      exact ⟨hloop.1, fun h => absurd h hloop.2⟩
  | left src' q =>
      rw [hexit] at hloop
      rw [finishPton6]
      split
      · split
        · exact ⟨hloop.1, by simp⟩
        · exact concludePton6_inside hloop.1 hloop.2
      · exact concludePton6_inside hloop.1 hloop.2

theorem inetPton6_inside (src : List Char) (bytes : List UInt8) :
    Pton6Inside src (inetPton6 src bytes ']') := by
  rw [inetPton6.eq_def]
  split
  · exact ⟨List.suffix_refl _, by simp⟩
  · split
    · exact resume_inside (List.suffix_cons ..)
    · exact ⟨List.suffix_cons .., by simp⟩
  · exact resume_inside (List.suffix_refl _)

end Ipv6

theorem afterIpv6_lowers (ctx : Ctx σ) : Lowers 6 ctx (afterIpv6 ctx) := by
  rw [afterIpv6.eq_def]
  split
  · exact ⟨rfl, List.suffix_refl _, show UriStatus.rank .valid < 6 by decide⟩
  · rename_i c pos heq
    have hpos : pos <:+ ctx.pos := by
      rw [heq]
      exact List.suffix_cons ..
    split
    · exact ⟨rfl, List.suffix_refl _, show UriStatus.rank .validPath < 6 by decide⟩
    · exact ⟨rfl, hpos, show UriStatus.rank .validPort < 6 by decide⟩
    · exact ⟨rfl, hpos, show UriStatus.rank .validFragment < 6 by decide⟩
    · exact ⟨rfl, hpos, show UriStatus.rank .validQueries < 6 by decide⟩
    · exact ⟨rfl, List.suffix_refl _, show UriStatus.rank .ipv6CharAfterClosing < 6 by decide⟩

theorem parseHostIpv6_safe {O : Output σ} {rest : List Char}
    (hpos : ctx.pos = '[' :: rest) : Safe (Lowers 6 ctx) (parseHostIpv6 O ctx) := by
  obtain ⟨hsrc, hspecial⟩ := inetPton6_inside rest (List.replicate 16 0)
  have hcons : rest <:+ ctx.pos := by
    rw [hpos]
    exact List.suffix_cons ..
  have herror (value : UriStatus) (hvalue : value.rank < 6) :
      Lowers 6 ctx ({ ctx with pos := (Ip.inetPton6 rest (List.replicate 16 0) ']').src }.setError
        value) := ⟨rfl, hsrc.trans hcons, hvalue⟩
  rw [parseHostIpv6]
  split
  · exact ⟨rfl, List.suffix_refl _, show UriStatus.rank .invalidDomainCodePoint < 6 by decide⟩
  · rw [hpos, advance_one_cons, ok_bind]
    generalize Ip.inetPton6 rest (List.replicate 16 0) ']' = r at hsrc hspecial herror
    simp only
    split
    · exact herror _ (show UriStatus.rank .ipv6Unclosed < 6 by decide)
    · rename_i hstatus
      have hhead := hspecial hstatus
      cases hr : r.src with
      | nil =>
          rw [hr] at hhead
          cases hhead
      | cons c rest' =>
          rw [hr] at hhead hsrc
          cases hhead
          have hafter := afterIpv6_lowers { ctx with
            pos := rest', out := O.setValue .host ('[' :: rest) rest' ctx.out }
          rw [deref_cons, ok_bind, if_pos rfl]
          exact ⟨hafter.beg, hafter.pos.trans ((List.suffix_cons ..).trans (hsrc.trans hcons)),
            hafter.rank⟩
    · rename_i hvalid hspecial'
      refine herror _ ?_
      cases hstatus : r.status with
      | valid => exact absurd hstatus hvalid
      | validSpecial => exact absurd hstatus hspecial'
      | _ => decide

end Webpp.Uri
