import Webpp.Uri.HostIpv4Contract
import Webpp.Uri.HostOutcome
import Webpp.Uri.PortTexts

/-!
# Hosts before ports

`parse_authority_pieces` leaves at a colon with a port behind it, and what follows its loop is
left out: a host before a port is stored as it is read, also where it ends like an IPv4 address.
`readsAlike_iff` says which hosts are the same with a port and without.
-/

namespace Webpp.Uri

open ComponentEncoder Loop Webpp.Text

variable {σ : Type} {octets : List ℕ}

/-! ## The colon -/

/-- The digits of a port. -/
structure IsPort (port : List Char) : Prop where
  ne_nil : port ≠ []
  digits : ∀ c ∈ port, isDigit c = true
  range : portNumber port ≤ maxPortNumber

/-- What becomes of a host before a port, where the colon may also be one of credentials. -/
def portOutcome (o : Options) (read stored : List Char) : Option (List Char) :=
  if read = [] ∧ o.emptyHostIsError = true then none else some stored

/-- The piece of the input that is the host beside a port. -/
def SetsBeforePort (O : Output σ) (start : Ctx σ) (host port extra : List Char) : Prop :=
  if O.isModifiable = false ∧ O.isSegregated = false then
    O.view .host (O.setValue .host start.pos (':' :: (port ++ ['/']))
      (O.setValue .port (withoutZeros port ++ ['/']) ['/'] start.out)) = host ++ extra
  else extra = []

section Colon

variable {o : Options} {O : Output σ} {start ctx : Ctx σ} {host port text extra : List Char}
  {e : ComponentEncoder σ} {s : AuthorityState σ}

theorem HasRead.storedBeforePort (hO : StoresHost O)
    (hsets : SetsBeforePort O start host port extra) (h : HasRead O start host text e)
    (hpos : e.ctx.pos = ':' :: (port ++ ['/']))
    (hout : ctx.out = O.setValue .port (withoutZeros port ++ ['/']) ['/'] e.ctx.out) :
    hostname O (setValueOf O .host start.pos e.ctx.pos
      (endSegmentOf O .host e.beg e.ctx.pos { e with ctx := ctx })).ctx.out = text ++ extra := by
  have hport := hO.port
  rw [endSegmentOf, isVec_host, setValueOf, isSeg_host]
  rw [SetsBeforePort] at hsets
  cases hmodifiable : O.isModifiable with
  | true =>
      rw [hmodifiable, if_neg (by simp)] at hsets
      rw [Bool.not_true, Bool.and_false, Bool.and_false, if_neg Bool.false_ne_true,
        if_neg Bool.false_ne_true, hsets, List.append_nil]
      show hostname O ctx.out = text
      rw [hout, (hport (.inl hmodifiable) _ _ _).1]
      exact (h.written hmodifiable).1
  | false =>
      rw [h.copied hmodifiable, Bool.not_false, Bool.and_true, Bool.and_true]
      cases hsegregated : O.isSegregated with
      | true =>
          obtain ⟨segment, hbeg, hjoin⟩ := h.segments hmodifiable hsegregated
          have hslice : slice e.beg e.ctx.pos = segment := by
            rw [hbeg, slice_append]
          rw [hmodifiable, hsegregated, if_neg (by simp)] at hsets
          rw [Bool.not_true, if_neg Bool.false_ne_true, if_pos rfl, hostname, if_pos hsegregated,
            hsets, List.append_nil]
          show ['.'].intercalate (O.segments .host (O.editSegments .host _ ctx.out)) = host
          rw [hO.segments_edit hsegregated, hslice, hout, (hport (.inr hsegregated) _ _ _).2, hjoin]
      | false =>
          obtain ⟨hkept, hbeg⟩ := h.untouched hmodifiable hsegregated
          rw [if_pos ⟨hmodifiable, hsegregated⟩] at hsets
          rw [Bool.not_false, if_pos rfl, if_neg Bool.false_ne_true, hostname,
            if_neg (by rw [hsegregated]; exact Bool.false_ne_true)]
          show O.view .host (O.setValue .host start.pos e.ctx.pos ctx.out) = _
          rw [hout, hkept, hpos]
          exact hsets

theorem isPortText_of_isPort (h : IsPort port) : IsPortText port := fun c hc => .inl (h.digits c hc)

theorem HostSoFar.endsAtColon (hO : StoresHost O) (ho : o.parseCredentails = true)
    (hsets : SetsBeforePort O start host port extra) (hport : IsPort port)
    (hdefault : portNumber port ≠ knownPort (O.view .scheme start.out))
    (h : HostSoFar O start host text s) (hpos : s.coder.ctx.pos = ':' :: (port ++ ['/'])) :
    EndsWithHost o O (deref s.coder.ctx.pos >>= authoritySwitch o O true start.pos s)
      (portOutcome o host (text ++ extra)) := by
  have hends : EndsPort ['/'] := endsPort_slash
  have hne : ((s.coder.setPos (port ++ ['/'])).setValid .validPort).ctx.pos ≠ [] := by
    show port ++ ['/'] ≠ []
    simp
  obtain ⟨ctx, hparse, hvalue, hout⟩ := parsePort_read (O := O) hne rfl
    (isPortText_of_isPort hport) hends hport.range
  have hscheme : O.view .scheme ((s.coder.setPos (port ++ ['/'])).setValid .validPort).ctx.out =
      O.view .scheme start.out := h.coder.scheme
  rw [hscheme, if_neg hdefault] at hout
  have hstored := h.coder.storedBeforePort hO hsets hpos hout
  rw [← h.hostBegin] at hstored
  have hinvalid : ¬ctx.status.value = .portInvalid := by
    rw [hvalue]
    decide
  rw [hpos, deref_cons, ok_bind, authoritySwitch, authorityColon, ho, if_neg (by simp),
    if_neg (by simp), hpos, advance_one_cons, ok_bind, hparse, ok_bind, if_neg hinvalid]
  rw [hpos] at hstored
  dsimp only
  have hset := (endSegmentOf_movedTo O .host { s.coder with ctx := ctx } s.coder.beg
    (':' :: (port ++ ['/']))).trans (setValueOf_movedTo O .host (endSegmentOf O .host s.coder.beg
      (':' :: (port ++ ['/'])) { s.coder with ctx := ctx }) s.hostBegin (':' :: (port ++ ['/'])))
  have hvalid : ctx.status.hasError = false := by
    rw [Status.hasError, hvalue]
    rfl
  have hlength := h.length_eq_iff
  rw [hpos] at hlength
  rw [Status.hasError, ← hset.value, ← Status.hasError] at hvalid
  generalize setValueOf O .host s.hostBegin (':' :: (port ++ ['/'])) (endSegmentOf O .host
    s.coder.beg (':' :: (port ++ ['/'])) { s.coder with ctx := ctx }) = e at hstored hvalid ⊢
  have hreturned {c : Ctx σ} (hout : c.out = e.ctx.out) (hc : c.status.hasError = false) :
      EndsWithHost o O (.ok (.done (.returned c))) (some (text ++ extra)) := by
    refine endsWithHost_of_done ?_
    show accepted O (.ok c) = _
    rw [accepted_of_valid hc, hout, hstored]
  rw [portOutcome, Bool.and_true]
  by_cases hhost : host = []
  · rw [if_pos (hlength.mpr hhost)]
    by_cases hempty : o.emptyHostIsError = true
    · rw [if_pos hempty, if_pos ⟨hhost, hempty⟩]
      exact endsWithHost_of_error rfl
    · have hboth : ¬(host = [] ∧ o.emptyHostIsError = true) := fun hboth => hempty hboth.2
      rw [if_neg hempty, if_neg hboth]
      split
      · exact hreturned rfl rfl
      · exact hreturned rfl hvalid
  · rw [if_neg fun heq => hhost (hlength.mp heq), if_neg fun hboth => hhost hboth.1]
    exact hreturned rfl hvalid

end Colon

/-! ## The texts of hosts -/

section Texts

variable {o : Options} {O : Output σ} {host behind text digits : List Char} {c d : Char}

theorem readHost_stopped (h : (readHost o O host).2 = .stopped behind) :
    ∃ c rest, behind = c :: rest ∧ c ∈ host ∧ passedOver o O c = none := by
  fun_induction readHost o O host with
  | case1 => cases h
  | case2 => cases h
  | case3 => cases h
  | case4 c hpercent c1 c2 host d hd ih =>
      obtain ⟨c, rest, hbehind, hmem, hpassed⟩ := ih h
      exact ⟨c, rest, hbehind, by simp [hmem], hpassed⟩
  | case5 c hpercent c1 c2 host hd chars hpassed ih =>
      obtain ⟨c, rest, hbehind, hmem, hpassed⟩ := ih h
      exact ⟨c, rest, hbehind, by simp [hmem], hpassed⟩
  | case6 c hpercent c1 c2 host hd hpassed =>
      cases h
      exact ⟨c2, host, rfl, by simp, hpassed⟩
  | case7 c host hpercent hc chars hpassed ih =>
      obtain ⟨c, rest, hbehind, hmem, hpassed⟩ := ih h
      exact ⟨c, rest, hbehind, List.mem_cons_of_mem _ hmem, hpassed⟩
  | case8 c host hpercent hc hpassed =>
      cases h
      exact ⟨c, host, rfl, List.mem_cons_self, hpassed⟩
  | case9 c host hpercent hc ih =>
      obtain ⟨c, rest, hbehind, hmem, hpassed⟩ := ih h
      exact ⟨c, rest, hbehind, List.mem_cons_of_mem _ hmem, hpassed⟩

theorem readHost_cons_plain (hc : (authorityInteresting O true).contains c = false)
    (host : List Char) : readHost o O (c :: host) = pushText [c] (readHost o O host) := by
  rw [readHost.eq_def]
  dsimp only
  rw [if_neg fun hpercent => ne_percent_of_contains hc hpercent.2, hc, if_neg Bool.false_ne_true]

theorem readHost_cons_passed (hpercent : ¬(O.isModifiable = true ∧ c = '%'))
    (hc : (authorityInteresting O true).contains c = true)
    (hpassed : passedOver o O c = some text) (host : List Char) :
    readHost o O (c :: host) = pushText text (readHost o O host) := by
  rw [readHost.eq_def]
  dsimp only
  rw [if_neg hpercent, if_pos hc, hpassed]

theorem readHost_plain (h : ∀ c ∈ host, (authorityInteresting O true).contains c = false) :
    readHost o O host = (host, .whole) := by
  induction host with
  | nil => rfl
  | cons c host ih =>
      obtain ⟨hc, htail⟩ := List.forall_mem_cons.mp h
      rw [readHost_cons_plain hc, ih htail]
      rfl

/-- Of a lone `%` before a port an escape is made. -/
theorem readHost_lonePercent (hd : decodedChar ':' c = some d)
    (hdigits : ∀ c ∈ digits, (authorityInteresting O true).contains c = false)
    (h : (readHost o O host).2 = .lonePercent) :
    O.isModifiable = true ∧ (∃ front, host = front ++ ['%']) ∧
      readHost o O (host ++ ':' :: c :: digits) =
        ((readHost o O host).1 ++ d :: digits, .whole) := by
  have hpush (chars : List Char) {r r' : List Char × HostEnd}
      (hr : r = (r'.1 ++ d :: digits, .whole)) :
      pushText chars r = ((pushText chars r').1 ++ d :: digits, .whole) := by
    rw [hr, pushText, pushText, List.append_assoc]
  fun_induction readHost o O host with
  | case1 => cases h
  | case2 c' hpercent =>
      refine ⟨hpercent.1, ⟨[], by rw [hpercent.2]; rfl⟩, ?_⟩
      rw [List.singleton_append, readHost, if_pos hpercent]
      dsimp only
      rw [hd, readHost_plain hdigits]
      rfl
  | case3 => cases h
  | case4 c' hpercent c1 c2 host d' hd' ih =>
      obtain ⟨hmodifiable, ⟨front, rfl⟩, hread⟩ := ih h
      refine ⟨hmodifiable, ⟨c' :: c1 :: c2 :: front, rfl⟩, ?_⟩
      rw [List.cons_append, List.cons_append, List.cons_append, readHost, if_pos hpercent, hd']
      exact hpush [d'] hread
  | case5 c' hpercent c1 c2 host hd' chars hpassed ih =>
      obtain ⟨hmodifiable, ⟨front, rfl⟩, hread⟩ := ih h
      refine ⟨hmodifiable, ⟨c' :: c1 :: c2 :: front, rfl⟩, ?_⟩
      rw [List.cons_append, List.cons_append, List.cons_append, readHost, if_pos hpercent, hd',
        hpassed]
      exact hpush chars hread
  | case6 => cases h
  | case7 c' host hpercent hc chars hpassed ih =>
      obtain ⟨hmodifiable, ⟨front, rfl⟩, hread⟩ := ih h
      refine ⟨hmodifiable, ⟨c' :: front, rfl⟩, ?_⟩
      rw [List.cons_append, readHost_cons_passed hpercent hc hpassed]
      exact hpush chars hread
  | case8 => cases h
  | case9 c' host hpercent hc ih =>
      obtain ⟨hmodifiable, ⟨front, rfl⟩, hread⟩ := ih h
      refine ⟨hmodifiable, ⟨c' :: front, rfl⟩, ?_⟩
      rw [List.cons_append, readHost_cons_plain (Bool.eq_false_iff.mpr hc)]
      exact hpush [c'] hread

end Texts

/-! ### Addresses -/

/-- The characters of the octets of an address. -/
def IsOctetChar (c : Char) : Prop := isHexDigit c = true ∨ c ∈ ['x', 'X', '.']

section OctetChars

variable {o : Options} {base n octet : ℕ} {src rest host : List Char} {c : Char}

theorem isOctetChar_of_isDigit (h : isDigit c = true) : IsOctetChar c :=
  .inl (isHexDigit_of_isDigit h)

theorem isOctetChar_of_octetDigit (h : octetDigit o base c ≠ none) : IsOctetChar c := by
  rw [octetDigit] at h
  split at h
  · exact .inl (Option.isSome_iff_ne_none.mpr h)
  · split at h
    · exact isOctetChar_of_isDigit ‹_›
    · exact absurd rfl h

theorem readOctet_chars (h : readOctet o base n src = some (octet, rest)) :
    ∃ front, src = front ++ rest ∧ ∀ c ∈ front, IsOctetChar c := by
  induction src generalizing n with
  | nil =>
      cases h
      exact ⟨[], rfl, fun c hc => absurd hc List.not_mem_nil⟩
  | cons c src ih =>
      rw [readOctet, digit_eq] at h
      by_cases hrange : n * base + (octetDigit o base c).getD invalidNum ≥ invalidNum
      · rw [if_pos hrange] at h
        split at h
        · rename_i hdot
          cases h
          refine ⟨[c], rfl, fun d hd => .inr ?_⟩
          rw [List.mem_singleton.mp hd, hdot]
          decide
        · cases h
      · rw [if_neg hrange] at h
        have hc : IsOctetChar c := isOctetChar_of_octetDigit fun hnone => by
          refine hrange ?_
          rw [hnone]
          exact Nat.le_add_left _ _
        obtain ⟨front, hsrc, hfront⟩ := ih h
        exact ⟨c :: front, by rw [hsrc]; rfl, List.forall_mem_cons.mpr ⟨hc, hfront⟩⟩

theorem octetBase_chars (o : Options) (src : List Char) :
    ∃ front, src = front ++ (octetBase o src).2 ∧ ∀ c ∈ front, IsOctetChar c := by
  have hzero : IsOctetChar '0' := isOctetChar_of_isDigit rfl
  have hsame : ∃ front, src = front ++ src ∧ ∀ c ∈ front, IsOctetChar c :=
    ⟨[], rfl, fun c hc => absurd hc List.not_mem_nil⟩
  rw [octetBase.eq_def]
  split
  · rename_i rest
    have hone : ∃ front, '0' :: rest = front ++ rest ∧ ∀ c ∈ front, IsOctetChar c :=
      ⟨['0'], rfl, fun c hc => by rwa [List.mem_singleton.mp hc]⟩
    dsimp only
    split
    · cases rest with
      | nil => exact hone
      | cons c digits =>
          dsimp only
          split
          · rename_i hc
            refine ⟨['0', c], rfl, List.forall_mem_cons.mpr ⟨hzero, fun d hd => .inr ?_⟩⟩
            rw [List.mem_singleton.mp hd]
            rcases hc with rfl | rfl
            · decide
            · decide
          · exact hone
    · exact hsame
  · exact hsame

theorem octetAt_chars (h : octetAt o src = some (octet, rest)) :
    ∃ front, src = front ++ rest ∧ ∀ c ∈ front, IsOctetChar c := by
  obtain ⟨front, hsrc, hfront⟩ := octetBase_chars o src
  obtain ⟨front', hrest, hfront'⟩ := readOctet_chars h
  refine ⟨front ++ front', ?_, fun c hc => (List.mem_append.mp hc).elim (hfront c) (hfront' c)⟩
  rw [List.append_assoc, ← hrest]
  exact hsrc

/-- What is read of the host are characters of octets. -/
def OctetsSoFar (host : List Char) (s : HostIpv4State σ) : Prop :=
  ∀ c ∈ host, IsOctetChar c ∨ c ∈ s.src

/-- The loop ends at the end of the host or before a dot. -/
def OctetsDone (host : List Char) (r : Option (HostIpv4State σ) × Ctx σ) : Prop :=
  ∀ s, r.1 = some s → OctetsSoFar host s ∧ (s.src = [] ∨ s.src.head? = some '.')

theorem afterOctet_chars (stored : List ℕ) (octet : ℕ) {ctx : Ctx σ}
    (h : ∀ c ∈ host, IsOctetChar c ∨ c ∈ rest) :
    Sat (fun _ => True) (FlowSat (OctetsSoFar host) (OctetsDone host))
      (afterOctet stored octet rest ctx) := by
  rw [afterOctet]
  split
  · rename_i hrest
    rintro s ⟨⟩
    exact ⟨h, .inl hrest⟩
  · split
    · rintro s ⟨⟩
      exact ⟨fun c hc => (h c hc).imp_right (List.mem_cons_of_mem _), .inr rfl⟩
    · split
      · rintro s ⟨⟩
      · split
        · trivial
        · exact h

theorem hostIpv4Step_chars {s : HostIpv4State σ} (hs : OctetsSoFar host s) :
    Sat (fun _ => True) (FlowSat (OctetsSoFar host) (OctetsDone host)) (hostIpv4Step o s) := by
  by_cases hsrc : s.src = []
  · rw [hostIpv4Step, hsrc]
    trivial
  · cases hoctet : octetAt o s.src with
    | none =>
        rw [hostIpv4Step_refused hsrc hoctet]
        rintro s ⟨⟩
    | some r =>
        obtain ⟨octet, rest⟩ := r
        obtain ⟨front, hfront, hchars⟩ := octetAt_chars hoctet
        rw [hostIpv4Step_read hsrc hoctet]
        refine afterOctet_chars _ _ fun c hc => ?_
        have hmem := hs c hc
        rw [hfront, List.mem_append] at hmem
        exact hmem.elim .inl fun hmem => hmem.imp_left (hchars c)

theorem hostIpv4End_chars {s : HostIpv4State σ} {ctx ctx' : Ctx σ}
    (hs : OctetsSoFar host s) (hsrc : s.src = [] ∨ s.src.head? = some '.')
    (h : hostIpv4End o s ctx = (some octets, ctx')) : ∀ c ∈ host, IsOctetChar c := by
  have hdots : (checkTrailingDots o s.src ctx).1 = true := by
    rw [hostIpv4End] at h
    dsimp only at h
    split at h
    · assumption
    · cases h
  have hall : ∀ c ∈ s.src, c = '.' := by
    rcases hsrc with hnil | hhead
    · rw [hnil]
      exact fun c hc => absurd hc List.not_mem_nil
    · rw [checkTrailingDots, if_pos hhead] at hdots
      split at hdots
      · split at hdots
        · rename_i hall
          exact fun c hc => eq_of_beq (List.all_eq_true.mp hall c hc)
        · cases hdots
      · split at hdots
        · rename_i htail
          have hnil := List.isEmpty_iff.mp ((Bool.and_eq_true _ _).mp htail).2
          obtain ⟨rest, hcons⟩ := List.head?_eq_some_iff.mp hhead
          rw [hcons] at hnil ⊢
          rw [List.tail_cons] at hnil
          rw [hnil]
          exact fun c hc => List.mem_singleton.mp hc
        · cases hdots
  intro c hc
  rcases hs c hc with hchar | hmem
  · exact hchar
  · rw [hall c hmem]
    exact .inr (by decide)

theorem chars_of_octetsOf (h : octetsOf o host = some octets) :
    ∀ c ∈ host, IsOctetChar c := by
  have hstart : OctetsSoFar host ⟨host, [], 0, textCtx host⟩ := fun c hc => .inr hc
  rw [octetsOf] at h
  cases hr : parseHostIpv4 o host (textCtx host) with
  | error fault =>
      rw [hr] at h
      cases h
  | ok r =>
      obtain ⟨result, ctx⟩ := r
      rw [hr] at h
      obtain rfl : result = some octets := h
      by_cases hne : host = []
      · rw [parseHostIpv4, if_pos hne] at hr
        cases hr
      · by_cases hdot : host.head? = some '.'
        · rw [parseHostIpv4, if_neg hne, if_pos hdot] at hr
          exact hostIpv4End_chars hstart (.inr hdot) (Except.ok.inj hr)
        · rw [parseHostIpv4_eq hne hdot] at hr
          cases hloop : loop (hostIpv4Step o) .diverges (host.length + 1)
              ⟨host, [], 0, textCtx host⟩ with
          | error fault =>
              rw [hloop] at hr
              cases hr
          | ok r =>
              obtain ⟨result, ctx'⟩ := r
              have hdone := loop_partly (OctetsSoFar host) (OctetsDone host)
                (fun s hs => hostIpv4Step_chars hs) hstart hloop
              rw [hloop] at hr
              cases result with
              | none => cases hr
              | some s =>
                  obtain ⟨hs, hsrc⟩ := hdone s rfl
                  exact hostIpv4End_chars hs hsrc (Except.ok.inj hr)

end OctetChars

/-! ### Unreserved characters -/

section Unreserved

variable {o : Options} {O : Output σ} {host port : List Char} {c : Char}

theorem not_interesting_of_isUnreserved (hc : isUnreserved c = true) (hdot : c ≠ '.')
    (hupper : O.isModifiable = true → upperAlpha c = false) :
    (authorityInteresting O true).contains c = false :=
  Bool.eq_false_iff.mpr fun hcontains => hdot (Stops.eq_dot ⟨hcontains, hupper⟩ hc)

theorem isUnreserved_of_isOctetChar (h : IsOctetChar c) : isUnreserved c = true := by
  have hdigits : ∀ c ∈ hexDigitChars, isUnreserved c = true := by decide
  have hothers : ∀ c ∈ ['x', 'X', '.'], isUnreserved c = true := by decide
  exact h.elim (fun hhex => hdigits c (mem_hexDigitChars hhex)) (hothers c)

theorem not_digit_toLowerCopy (h : upperAlpha c = true) :
    isDigit (toLowerCopy c) = false ∧ toLowerCopy c ≠ '.' := by
  have hascii : c.toNat < 128 :=
    of_decide_eq_true ((Bool.and_eq_true _ _).mp (contains_of_upperAlpha h)).1
  exact forall_ascii (P := fun c => upperAlpha c = true → isDigit (toLowerCopy c) = false ∧
    toLowerCopy c ≠ '.') (by decide) hascii h

theorem isDigit_not_upperAlpha (h : isDigit c = true) : upperAlpha c = false := by
  refine Bool.eq_false_iff.mpr fun hupper => ?_
  have hbounds := (isDigit_iff c).mp h
  have hletter := of_decide_eq_true ((Bool.and_eq_true _ _).mp hupper).1
  have hle := hletter.trans hbounds.2
  exact absurd hle (by decide)

theorem not_interesting_of_isDigit (h : isDigit c = true) :
    (authorityInteresting O true).contains c = false := by
  refine not_interesting_of_isUnreserved
    (isUnreserved_of_isOctetChar (isOctetChar_of_isDigit h)) ?_
    fun _ => isDigit_not_upperAlpha h
  rintro rfl
  cases h

theorem readHost_unreserved (hmodifiable : O.isModifiable = true) (h : IsUnreservedText host) :
    readHost o O host = (host.map toLowerCopy, .whole) := by
  induction host with
  | nil => rfl
  | cons c host ih =>
      obtain ⟨hc, htail⟩ := List.forall_mem_cons.mp h
      have hpercent : ¬(O.isModifiable = true ∧ c = '%') := by
        rintro ⟨-, rfl⟩
        exact absurd hc (by decide)
      by_cases hupper : upperAlpha c = true
      · have hcontains : (authorityInteresting O true).contains c = true := by
          rw [interesting_of_modifiable hmodifiable, contains_of_upperAlpha hupper, Bool.or_true]
        have hpassed : passedOver o O c = some [toLowerCopy c] := by
          rw [passedOver, hmodifiable, hupper, if_pos (by decide)]
        rw [readHost_cons_passed hpercent hcontains hpassed, ih htail]
        rfl
      · have hsame : toLowerCopy c = c := if_neg hupper
        by_cases hdot : c = '.'
        · have hcontains : (authorityInteresting O true).contains '.' = true := by
            rw [interesting_of_modifiable hmodifiable]
            decide
          subst hdot
          rw [readHost_cons_passed hpercent hcontains (passedOver_dot o O), ih htail]
          rfl
        · rw [readHost_cons_plain (not_interesting_of_isUnreserved hc hdot fun _ =>
            Bool.eq_false_iff.mpr hupper), ih htail, List.map_cons, hsame]
          rfl

theorem mem_ipv4Text (h : c ∈ ipv4Text octets) : isDigit c = true ∨ c = '.' := by
  rw [ipv4Text, Ip.inetNtop4] at h
  simp only [List.mem_append, List.mem_cons] at h
  rcases h with h | h | h | h | h | h | h
  · exact .inl (Ip.isDigit_of_mem_putOctet h)
  · exact .inr h
  · exact .inl (Ip.isDigit_of_mem_putOctet h)
  · exact .inr h
  · exact .inl (Ip.isDigit_of_mem_putOctet h)
  · exact .inr h
  · exact .inl (Ip.isDigit_of_mem_putOctet h)

theorem map_toLowerCopy_of_mem (h : ∀ c ∈ host, toLowerCopy c ∈ ipv4Text octets) :
    host.map toLowerCopy = host := by
  have hsame : ∀ c ∈ host, toLowerCopy c = c := by
    intro c hc
    refine if_neg fun hupper => ?_
    obtain ⟨hdigit, hdot⟩ := not_digit_toLowerCopy hupper
    rcases mem_ipv4Text (h c hc) with hmem | hmem
    · rw [hdigit] at hmem
      cases hmem
    · exact hdot hmem
  rw [List.map_congr_left hsame, List.map_id']

theorem ipv4Text_eq_read_iff (hmodifiable : O.isModifiable = true)
    (h : octetsOf o host = some octets) :
    ipv4Text octets = (readHost o O host).1 ↔ host = ipv4Text octets := by
  rw [readHost_unreserved hmodifiable fun c hc =>
    isUnreserved_of_isOctetChar (chars_of_octetsOf h c hc)]
  constructor
  · intro htext
    have hmem : ∀ c ∈ host, toLowerCopy c ∈ ipv4Text octets := fun c hc => by
      rw [htext]
      exact List.mem_map_of_mem hc
    rw [htext]
    exact (map_toLowerCopy_of_mem hmem).symm
  · intro hhost
    have hlower : ∀ c ∈ host, toLowerCopy c = c := by
      intro c hc
      refine if_neg (Bool.eq_false_iff.mp ?_)
      rw [hhost] at hc
      rcases mem_ipv4Text hc with hdigit | rfl
      · exact isDigit_not_upperAlpha hdigit
      · rfl
    rw [List.map_congr_left hlower, List.map_id', ← hhost]

/-! ### Ports -/

theorem endsWithOctet_port {start : ℕ} {digits back : List Char}
    (hdigits : ∀ c ∈ digits, isDigit c = true) (hback : start < back.length) :
    endsWithOctet start (digits ++ ':' :: back) false = .ok false := by
  induction digits with
  | nil =>
      rw [List.nil_append, endsWithOctet.eq_def]
      dsimp only
      rw [if_neg hback.ne', if_neg (by decide), if_neg (by decide), if_neg (by decide),
        if_neg (by decide)]
      rfl
  | cons c digits ih =>
      obtain ⟨hc, htail⟩ := List.forall_mem_cons.mp hdigits
      have hlength : (digits ++ ':' :: back).length ≠ start := by
        rw [List.length_append, List.length_cons]
        omega
      have hdot : c ≠ '.' := by
        rintro rfl
        cases hc
      rw [List.cons_append, endsWithOctet.eq_def]
      dsimp only
      rw [if_neg hlength, if_neg hdot, if_pos hc]
      exact ih htail

theorem endsLikeIpv4_port (o : Options) (scheme : List Char) (hhost : host ≠ [])
    (hport : IsPort port) : endsLikeIpv4 o scheme (host ++ ':' :: port) = false := by
  obtain ⟨front, d, rfl⟩ := (List.eq_nil_or_concat' port).resolve_left hport.ne_nil
  have hd : isDigit d = true := hport.digits d (by simp)
  have hdot : d ≠ '.' := by
    rintro rfl
    cases hd
  have hstart : (textCtx (schemeText scheme ++ (host ++ ':' :: (front ++ [d])))).beg.length -
      (host ++ ':' :: (front ++ [d])).length = (schemeText scheme).length := by
    rw [textCtx, List.length_append, Nat.add_sub_cancel]
  have hreverse : (slice (textCtx (schemeText scheme ++ (host ++ ':' :: (front ++ [d])))).beg
      (textCtx (schemeText scheme ++ (host ++ ':' :: (front ++ [d])))).pos).reverse =
        (d :: front.reverse) ++ ':' :: (host.reverse ++ (schemeText scheme).reverse) := by
    rw [textCtx, slice_nil]
    simp
  have hdigits : ∀ c ∈ d :: front.reverse, isDigit c = true := by
    intro c hc
    refine hport.digits c ?_
    simpa [or_comm] using hc
  have hback : (schemeText scheme).length <
      (host.reverse ++ (schemeText scheme).reverse).length := by
    rw [List.length_append, List.length_reverse, List.length_reverse]
    have hpositive := List.length_pos_iff.mpr hhost
    omega
  have hnone := endsWithOctet_port hdigits hback
  rw [endsLikeIpv4, isPossibleEndsWithIpv4, hstart, hreverse, List.cons_append, pruneDots,
    if_neg hdot, pure_bind]
  dsimp only
  rw [← List.cons_append, hnone]
  rfl

end Unreserved

/-! ## Whole authorities -/

/-- A host without the characters at which an authority is taken apart. -/
def IsBareHost (host : List Char) : Prop := ∀ c ∈ host, c ∉ [':', '@', '/', '\\', '?', '#']

/-- The parser is at the start of an authority, behind `scheme://`. -/
structure AtAuthority (O : Output σ) (scheme authority : List Char) (start : Ctx σ) : Prop where
  beg : start.beg = schemeText scheme ++ start.pos
  pos : start.pos = authority
  noHost : NoHost O start.out
  sets : SetsHost O start
  scheme : O.view .scheme start.out = scheme

section Runs

variable {o : Options} {O : Output σ} {start : Ctx σ}
  {scheme host behind rest port extra : List Char} {x : Char}

theorem AtAuthority.reads (hO : StoresHost O) (h : AtAuthority O scheme (host ++ x :: rest) start)
    (hx : EndsHost O x) (hlone : (readHost o O host).2 = .lonePercent → rest = []) :
    ReadsTo o O start.pos start ⟨startSegment O .host (ofCtx start), start.pos, [], false⟩ [] []
      host (readHost o O host) :=
  (hostSoFar_first hO h.noHost).reads hO hx
    (((startSegment_movedTo O .host (ofCtx start)).pos).trans h.pos) hlone

theorem HostSoFar.pos_eq {read text : List Char} {s : AuthorityState σ}
    (h : HostSoFar O start read text s) (hpos : start.pos = read ++ rest) :
    s.coder.ctx.pos = rest :=
  List.append_cancel_left (h.coder.pos.symm.trans hpos)

theorem AtAuthority.accepted_stopped (hO : StoresHost O)
    (h : AtAuthority O scheme (host ++ x :: rest) start) (hx : EndsHost O x)
    (hhost : IsBareHost host) (hrest : ']' ∉ x :: rest)
    (hr : (readHost o O host).2 = .stopped behind) :
    accepted O (parseAuthorityPieces o O true start) =
      stopOutcome o O scheme (slice host behind) (readHost o O host).1 (behind.headD '\x00') := by
  obtain ⟨c, tail, rfl, hmem, hpassed⟩ := readHost_stopped hr
  obtain ⟨run, hrun, hcomes⟩ := h.reads (o := o) hO hx fun hlone => by
    rw [hr] at hlone
    cases hlone
  rw [hr] at hrun
  have hrun : host = run ++ c :: tail := hrun
  have hslice : slice host (c :: tail) = run := by
    rw [hrun, slice_append]
  have hbracket : ∀ inside after, tail ++ x :: rest = inside ++ ']' :: after → ':' ∉ inside := by
    intro inside after hsplit hcolon
    have hnone : ':' ∉ tail := fun hmem' =>
      hhost ':' (by rw [hrun]; simp [hmem']) (by decide)
    rcases List.append_eq_append_iff.mp hsplit with ⟨more, -, hmore⟩ | ⟨more, hmore, -⟩
    · rw [hmore] at hrest
      exact hrest (by simp)
    · rw [hmore] at hnone
      exact hnone (List.mem_append_left _ hcolon)
  rw [hslice]
  refine hcomes.accepted_pieces fun s hs => ?_
  have hpos : start.pos = [] ++ run ++ c :: (tail ++ x :: rest) := by
    rw [h.pos, hrun, List.nil_append, List.append_assoc]
    rfl
  exact hs.stops hO h.sets h.beg (hs.pos_eq hpos) ⟨hhost c hmem, hpassed⟩ hbracket

theorem AtAuthority.accepted_slash (hO : StoresHost O)
    (h : AtAuthority O scheme (host ++ ['/']) start) (hr : (readHost o O host).2.behind = []) :
    accepted O (parseAuthorityPieces o O true start) =
      endOutcome o O scheme host (readHost o O host).1 := by
  obtain ⟨run, hrun, hcomes⟩ := h.reads (o := o) hO (endsHost_of_mem O (by decide)) fun _ => rfl
  rw [hr, List.append_nil] at hrun
  subst hrun
  refine hcomes.accepted_pieces fun s hs => ?_
  have hpos : start.pos = [] ++ host ++ ['/'] := h.pos
  exact hs.endsAtSlash hO h.sets h.beg (hs.pos_eq hpos)

theorem AtAuthority.accepted_colon (hO : StoresHost O) (ho : o.parseCredentails = true)
    (h : AtAuthority O scheme (host ++ ':' :: (port ++ ['/'])) start)
    (hsets : SetsBeforePort O start host port extra) (hport : IsPort port)
    (hdefault : portNumber port ≠ knownPort scheme) (hr : (readHost o O host).2 = .whole) :
    accepted O (parseAuthorityPieces o O true start) =
      portOutcome o host ((readHost o O host).1 ++ extra) := by
  obtain ⟨run, hrun, hcomes⟩ := h.reads (o := o) hO (endsHost_of_mem O (by decide)) fun hlone => by
    rw [hr] at hlone
    cases hlone
  rw [hr, HostEnd.behind, List.append_nil] at hrun
  subst hrun
  refine hcomes.accepted_pieces fun s hs => ?_
  have hpos : start.pos = [] ++ host ++ ':' :: (port ++ ['/']) := h.pos
  rw [← h.scheme] at hdefault
  exact hs.endsAtColon hO ho hsets hport hdefault (hs.pos_eq hpos)

theorem AtAuthority.accepted_lone_colon (hO : StoresHost O) (ho : o.parseCredentails = false)
    (hparse : o.parsePort = true) (h : AtAuthority O scheme (host ++ ':' :: rest) start)
    (hr : (readHost o O host).2 = .whole) :
    accepted O (parseAuthorityPieces o O true start) =
      endOutcome o O scheme host (readHost o O host).1 := by
  obtain ⟨run, hrun, hcomes⟩ := h.reads (o := o) hO (endsHost_of_mem O (by decide)) fun hlone => by
    rw [hr] at hlone
    cases hlone
  rw [hr, HostEnd.behind, List.append_nil] at hrun
  subst hrun
  refine hcomes.accepted_pieces fun s hs => ?_
  have hpos : s.coder.ctx.pos = ':' :: rest :=
    hs.pos_eq (show start.pos = [] ++ host ++ ':' :: rest from h.pos)
  have hswitch : authoritySwitch o O true start.pos s ':' =
      .ok (authorityBreak o true (s.setCoder (s.coder.setValid .validPort)) false) := by
    rw [authoritySwitch, authorityColon, ho, hparse, if_neg (by decide), if_pos (by decide)]
    rfl
  rw [hpos, deref_cons, ok_bind, hswitch]
  exact hs.breaks hO h.sets h.beg hpos rfl

end Runs

/-! ## With a port and without -/

/-- A host is the same with a port and without, where `alone` says that nothing of the port is
stored with it. A host that looks like an address has to be one, and where addresses are
rewritten it has to be the text of one. -/
def ReadsAlike (o : Options) (O : Output σ) (scheme host : List Char) (alone : Prop) : Prop :=
  match (readHost o O host).2 with
  | .stopped _ => True
  | .lonePercent => False
  | .whole => o.parseCredentails = true → ¬(host = [] ∧ o.emptyHostIsError = true) →
      alone ∧ (endsLikeIpv4 o scheme host = true → ∃ octets, octetsOf o host = some octets ∧
        (O.isModifiable = true → host = ipv4Text octets))

section Alike

variable {o : Options} {O : Output σ} {start start' : Ctx σ}
  {scheme host behind port extra text : List Char}

theorem portOutcome_eq_endOutcome_iff (hextra : O.isModifiable = true → extra = []) :
    portOutcome o host ((readHost o O host).1 ++ extra) =
        endOutcome o O scheme host (readHost o O host).1 ↔
      (¬(host = [] ∧ o.emptyHostIsError = true) →
        extra = [] ∧ (endsLikeIpv4 o scheme host = true → ∃ octets, octetsOf o host = some octets ∧
          (O.isModifiable = true → host = ipv4Text octets))) := by
  rw [portOutcome, endOutcome]
  by_cases hempty : host = [] ∧ o.emptyHostIsError = true
  · rw [if_pos hempty, if_pos hempty]
    exact iff_of_true rfl fun hnot => absurd hempty hnot
  · rw [if_neg hempty, if_neg hempty, forall_prop_of_true hempty, hostOutcome]
    by_cases hends : endsLikeIpv4 o scheme host = true
    · rw [if_pos hends, forall_prop_of_true hends]
      cases hoctets : octetsOf o host with
      | none => simp
      | some octets =>
          rw [Option.map_some, Option.some.injEq]
          by_cases hmodifiable : O.isModifiable = true
          · rw [hextra hmodifiable, List.append_nil, if_pos hmodifiable, eq_comm,
              ipv4Text_eq_read_iff hmodifiable hoctets]
            simp [hmodifiable]
          · rw [if_neg hmodifiable]
            simp [hmodifiable]
    · rw [if_neg hends, Option.some.injEq, List.append_right_eq_self]
      simp [hends]

/-- An escape that is made of a `%` and a port is a part of the host. -/
theorem endOutcome_lonePercent (hport : IsPort port)
    (hread : readHost o O (host ++ ':' :: port) = ((readHost o O host).1 ++ text, .whole))
    (htext : text ≠ []) (hpercent : ∃ front, host = front ++ ['%']) :
    endOutcome o O scheme (host ++ ':' :: port) (readHost o O (host ++ ':' :: port)).1 ≠
      endOutcome o O scheme host (readHost o O host).1 := by
  obtain ⟨front, hfront⟩ := hpercent
  have hhost : host ≠ [] := by
    rw [hfront]
    simp
  have hnone : octetsOf o host = none := by
    cases hoctets : octetsOf o host with
    | none => rfl
    | some octets =>
        have hchar := chars_of_octetsOf hoctets '%' (by rw [hfront]; simp)
        exact absurd (isUnreserved_of_isOctetChar hchar) (by decide)
  have hne : ¬(host ++ ':' :: port = [] ∧ o.emptyHostIsError = true) :=
    fun hboth => List.append_ne_nil_of_left_ne_nil hhost _ hboth.1
  rw [endOutcome, endOutcome, if_neg hne, if_neg fun hboth => hhost hboth.1, hostOutcome,
    hostOutcome, endsLikeIpv4_port o scheme hhost hport, hread, hnone,
    if_neg Bool.false_ne_true]
  split
  · exact Option.some_ne_none _
  · exact fun heq => htext (List.append_right_eq_self.mp (Option.some.inj heq))

/-- A `%` that is the last character of the host is never the same with a port. -/
theorem AtAuthority.lonePercent (hO : StoresHost O)
    (h : AtAuthority O scheme (host ++ ['/']) start)
    (h' : AtAuthority O scheme (host ++ ':' :: (port ++ ['/'])) start') (hport : IsPort port)
    (hr : (readHost o O host).2 = .lonePercent) :
    accepted O (parseAuthorityPieces o O true start') ≠
      accepted O (parseAuthorityPieces o O true start) := by
  obtain ⟨c, digits, rfl⟩ := List.exists_cons_of_ne_nil hport.ne_nil
  obtain ⟨hc, hdigits⟩ := List.forall_mem_cons.mp hport.digits
  have hd : decodedChar ':' c = some (Char.ofNat (0xF0 + digitValue c)) := by
    have hdigit : digitValue c ≠ 15 := by
      have hlt := digitValue_lt hc
      omega
    rw [decodedChar, hexDigitSafe_of_isDigit hc]
    exact if_neg hdigit
  obtain ⟨-, hfront, hread⟩ := readHost_lonePercent hd
    (fun c hc => not_interesting_of_isDigit (hdigits c hc)) hr
  have hpieces : (host ++ ':' :: (c :: digits ++ ['/'])) = host ++ ':' :: c :: digits ++ ['/'] := by
    rw [List.append_assoc]
    rfl
  rw [hpieces] at h'
  rw [h.accepted_slash hO (by rw [hr]; rfl), h'.accepted_slash hO (by rw [hread]; rfl)]
  exact endOutcome_lonePercent hport hread (List.cons_ne_nil _ _) hfront

theorem AtAuthority.stopped (hO : StoresHost O) (h : AtAuthority O scheme (host ++ ['/']) start)
    (h' : AtAuthority O scheme (host ++ ':' :: (port ++ ['/'])) start') (hhost : IsBareHost host)
    (hport : IsPort port) (hr : (readHost o O host).2 = .stopped behind) :
    accepted O (parseAuthorityPieces o O true start') =
      accepted O (parseAuthorityPieces o O true start) := by
  have hbracket : ']' ∉ ':' :: (port ++ ['/']) := by
    intro hmem
    have hdigit : isDigit ']' = true := hport.digits ']' (by simpa using hmem)
    exact absurd hdigit (by decide)
  rw [h.accepted_stopped hO (endsHost_of_mem O (by decide)) hhost (by decide) hr,
    h'.accepted_stopped hO (endsHost_of_mem O (by decide)) hhost hbracket hr]

theorem AtAuthority.whole_iff (hO : StoresHost O)
    (ho : o.parseCredentails = true ∨ o.parsePort = true)
    (h : AtAuthority O scheme (host ++ ['/']) start)
    (h' : AtAuthority O scheme (host ++ ':' :: (port ++ ['/'])) start')
    (hsets : SetsBeforePort O start' host port extra) (hport : IsPort port)
    (hdefault : portNumber port ≠ knownPort scheme) (hr : (readHost o O host).2 = .whole) :
    accepted O (parseAuthorityPieces o O true start') =
        accepted O (parseAuthorityPieces o O true start) ↔
      ReadsAlike o O scheme host (extra = []) := by
  have hextra : O.isModifiable = true → extra = [] := by
    intro hmodifiable
    rw [SetsBeforePort, hmodifiable, if_neg (by simp)] at hsets
    exact hsets
  have hbehind : (readHost o O host).2.behind = [] := by
    rw [hr]
    rfl
  rw [h.accepted_slash hO hbehind, ReadsAlike, hr]
  dsimp only
  cases hcredentials : o.parseCredentails with
  | true =>
      rw [h'.accepted_colon hO hcredentials hsets hport hdefault hr,
        portOutcome_eq_endOutcome_iff hextra]
      exact ⟨fun hiff _ => hiff, fun hiff => hiff rfl⟩
  | false =>
      have hparse := ho.resolve_left (by rw [hcredentials]; exact Bool.false_ne_true)
      rw [h'.accepted_lone_colon hO hcredentials hparse hr]
      exact iff_of_true rfl fun hfalse => absurd hfalse Bool.false_ne_true

theorem AtAuthority.readsAlike_iff (hO : StoresHost O)
    (ho : o.parseCredentails = true ∨ o.parsePort = true)
    (h : AtAuthority O scheme (host ++ ['/']) start)
    (h' : AtAuthority O scheme (host ++ ':' :: (port ++ ['/'])) start')
    (hsets : SetsBeforePort O start' host port extra) (hhost : IsBareHost host)
    (hport : IsPort port) (hdefault : portNumber port ≠ knownPort scheme) :
    accepted O (parseAuthorityPieces o O true start') =
        accepted O (parseAuthorityPieces o O true start) ↔
      ReadsAlike o O scheme host (extra = []) := by
  cases hr : (readHost o O host).2 with
  | whole => exact h.whole_iff hO ho h' hsets hport hdefault hr
  | lonePercent =>
      rw [ReadsAlike, hr]
      exact iff_of_false (h.lonePercent hO h' hport hr) id
  | stopped behind =>
      rw [ReadsAlike, hr]
      exact iff_of_true (h.stopped hO h' hhost hport hr) trivial

end Alike

end Webpp.Uri
