import Webpp.Ip.Pton6Contract
import Webpp.Uri.PresetIpv4
import Webpp.Uri.PresetDots

/-!
# What is behind a host

`hostRest` reads a text as `parse_authority_pieces` does for a special URI: it passes over
escapes, credentials and an address in brackets, and stops where the host ends. The parser of
the authority leaves what it says (`decodeOrTolower_rest`, `parsePort_rest`,
`parseHostIpv6_rest`).
-/

namespace Webpp.Uri

open ComponentEncoder Loop Webpp.Text

variable {σ : Type} {pos : List Char} {c : Char} {chars : AsciiBitmap} {ctx : Ctx σ}

/-- The digits of a port are followed by its end. -/
def portFollows (pos : List Char) : Bool :=
  (pos.dropWhile isDigit).head?.all fun c => ['/', '\\', '?', '#'].contains c

/-- The text behind the host: at a slash, a `?`, a `#` or the colon of a port. -/
def hostRest : List Char → List Char
  | [] => []
  | '%' :: c1 :: c2 :: rest =>
      if (decodedChar c1 c2).isSome then hostRest rest else hostRest (c2 :: rest)
  | c :: pos =>
      if c = '[' then (pos.dropWhile (· ≠ ']')).tail
      else if c = '/' ∨ c = '\\' ∨ c = '?' ∨ c = '#' then c :: pos
      else if c = ':' ∧ portFollows pos then c :: pos
      else hostRest pos
termination_by structural text => text

/-- The characters that `hostRest` does not pass over as they are. -/
def hostStops : List Char := ['%', '[', '/', '\\', '?', '#', ':']

theorem hostRest_cons (hc : c ∉ hostStops) (pos : List Char) :
    hostRest (c :: pos) = hostRest pos := by
  simp only [hostStops, List.mem_cons, List.not_mem_nil, or_false, not_or] at hc
  obtain ⟨hpercent, hbracket, hslash, hback, hquery, hhash, hcolon⟩ := hc
  rw [hostRest.eq_def]
  split
  · rename_i heq
    cases heq
  · rename_i heq
    exact absurd (List.cons.inj heq).1 hpercent
  · rename_i heq
    cases heq
    simp only [if_neg hbracket, hslash, hback, hquery, hhash, hcolon, or_self, false_and, if_false]

theorem hostRest_stop (hc : c = '/' ∨ c = '\\' ∨ c = '?' ∨ c = '#')
    (pos : List Char) : hostRest (c :: pos) = c :: pos := by
  rcases hc with rfl | rfl | rfl | rfl
  · rfl
  · rfl
  · rfl
  · rfl

theorem hostRest_bracket (pos : List Char) :
    hostRest ('[' :: pos) = (pos.dropWhile (· ≠ ']')).tail := rfl

theorem hostRest_colon (pos : List Char) :
    hostRest (':' :: pos) = if portFollows pos = true then ':' :: pos else hostRest pos := by
  rw [hostRest.eq_def]
  simp

theorem hostRest_escape {c1 c2 : Char} (rest : List Char) :
    hostRest ('%' :: c1 :: c2 :: rest) =
      if (decodedChar c1 c2).isSome = true then hostRest rest else hostRest (c2 :: rest) := by
  rw [hostRest.eq_def]
  rfl

theorem hostRest_percent (hshort : pos.length < 2) :
    hostRest ('%' :: pos) = hostRest pos := by
  rcases pos with _ | ⟨c, _ | ⟨d, pos⟩⟩
  · rfl
  · rfl
  · simp only [List.length_cons] at hshort
    omega

theorem hostRest_suffix (text : List Char) : hostRest text <:+ text := by
  fun_induction hostRest text with
  | case1 => exact List.suffix_refl _
  | case2 c1 c2 rest hd ih => exact ih.trans (List.suffix_append ['%', c1, c2] rest)
  | case3 c1 c2 rest hd ih => exact ih.trans (List.suffix_append ['%', c1] (c2 :: rest))
  | case4 pos hno =>
      exact ((List.tail_suffix _).trans (List.dropWhile_suffix _)).trans (List.suffix_cons ..)
  | case5 c pos hno hbracket hstop => exact List.suffix_refl _
  | case6 pos hno hbracket hstop => exact List.suffix_refl _
  | case7 c pos hno hbracket hstop hcolon ih => exact ih.trans (List.suffix_cons ..)

/-! ## The search in a domain -/

theorem hostStops_interesting (O : Output σ) (hc : c ∈ hostStops) :
    (authorityInteresting O true).contains c = true := by
  have hstops : ∀ c ∈ hostStops, forbiddenDomains.contains c = true := by decide
  rw [authorityInteresting, if_neg (by decide)]
  split
  · rw [AsciiBitmap.contains_union, hstops c hc, Bool.true_or]
  · exact hstops c hc

theorem not_mem_hostStops (O : Output σ)
    (hc : ¬(authorityInteresting O true).contains c = true) : c ∉ hostStops :=
  fun hmem => hc (hostStops_interesting O hmem)

theorem decodeUriComponent_rest
    (hchars : ∀ c, ¬chars.contains c = true → c ∉ hostStops) (pos : List Char) :
    hostRest (decodeUriComponent chars pos).2.1 = hostRest pos := by
  fun_induction decodeUriComponent chars pos with
  | case1 => rfl
  | case2 c1 c2 rest d hd r ih =>
      rw [hostRest_escape, hd]
      exact ih
  | case3 c1 c2 rest hd =>
      rw [hostRest_escape, hd]
      rfl
  | case4 pos hpos =>
      refine (hostRest_percent ?_).symm
      rcases pos with _ | ⟨c, _ | ⟨d, pos⟩⟩
      · exact Nat.succ_pos 1
      · exact Nat.lt_succ_self 1
      · exact absurd rfl (hpos c d pos)
  | case5 c pos hc hstop => rfl
  | case6 c pos hc hstop r ih =>
      rw [hostRest_cons (hchars c hstop)]
      exact ih

theorem findFirstIn_rest
    (hchars : ∀ c, ¬chars.contains c = true → c ∉ hostStops) (pos : List Char) :
    hostRest (chars.findFirstIn pos) = hostRest pos := by
  induction pos with
  | nil => rfl
  | cons c pos ih =>
      rw [AsciiBitmap.findFirstIn]
      split
      · rfl
      · rename_i hstop
        rw [hostRest_cons (hchars c hstop)]
        exact ih

theorem not_mem_hostStops_of_upperAlpha (hc : upperAlpha c = true) : c ∉ hostStops := by
  intro hmem
  have hall : ∀ c ∈ hostStops, upperAlpha c = false := by decide
  rw [hall c hmem] at hc
  cases hc

/-- What the search in the host `T` leaves. -/
structure InText (T pos : List Char) : Prop where
  suffix : pos <:+ T
  rest : hostRest pos = hostRest T

theorem InText.trans {T pos pos' : List Char} (h : InText T pos) (h' : InText pos pos') :
    InText T pos' :=
  ⟨h'.suffix.trans h.suffix, h'.rest.trans h.rest⟩

theorem InText.cons {T pos : List Char} (h : InText T (c :: pos))
    (hc : hostRest (c :: pos) = hostRest pos) : InText T pos :=
  ⟨(List.suffix_cons ..).trans h.suffix, hc.symm.trans h.rest⟩

theorem tolowerStep_rest (hchars : ∀ c, ¬chars.contains c = true → c ∉ hostStops) {T : List Char}
    {s : List Char × List Char} (hs : InText T s.2) :
    Partly (FlowSat (fun s' => InText T s'.2)
      (fun r => InText T r.2.1 ∧ (r.2.2 = true → r.2.1 = []))) (tolowerStep chars s) := by
  obtain ⟨hsuffix, hend⟩ := decodeUriComponent_spec chars s.2
  have hrest : InText s.2 (decodeUriComponent chars s.2).2.1 :=
    ⟨hsuffix, decodeUriComponent_rest hchars s.2⟩
  rw [tolowerStep]
  split
  · rename_i hnil
    rw [hnil] at hs
    exact ⟨hs, fun _ => rfl⟩
  · generalize decodeUriComponent chars s.2 = r at hrest hend
    simp only
    split
    · exact ⟨hs.trans hrest, fun _ => hend ‹_›⟩
    · cases hpos : r.2.1 with
      | nil => trivial
      | cons c rest =>
          rw [hpos] at hrest
          rw [deref_cons, ok_bind]
          split
          · rename_i hupper
            have hnot := not_mem_hostStops_of_upperAlpha hupper
            exact (hs.trans hrest).cons (hostRest_cons hnot rest)
          · exact ⟨hs.trans hrest, fun h => absurd h Bool.false_ne_true⟩

theorem decodeOrTolower_rest (O : Output σ) (e : ComponentEncoder σ) :
    Partly (fun r => InText e.ctx.pos r.2.ctx.pos ∧ MovedTo r.2.ctx.pos e.ctx r.2.ctx ∧
      r.2.ctx.status = e.ctx.status ∧ (r.1 = true → r.2.ctx.pos = []))
      (decodeOrTolower O .host (authorityInteresting O true) e) := by
  have hchars (c : Char) := not_mem_hostStops O (c := c)
  rw [decodeOrTolower]
  split
  · cases hloop : loop (tolowerStep (authorityInteresting O true)) .diverges (e.ctx.pos.length + 1)
        ([], e.ctx.pos) with
    | error fault => trivial
    | ok r =>
        have hleft : InText e.ctx.pos r.2.1 ∧ (r.2.2 = true → r.2.1 = []) := by
          refine loop_partly (fun s : List Char × List Char => InText e.ctx.pos s.2)
            (fun r => InText e.ctx.pos r.2.1 ∧ (r.2.2 = true → r.2.1 = []))
            (fun s hs => tolowerStep_rest hchars hs) ⟨List.suffix_refl _, rfl⟩ hloop
        exact ⟨hleft.1, (appendTo_movedTo O .host e r.1).setPos _, rfl, hleft.2⟩
  · refine ⟨⟨findFirstIn_suffix _ _, findFirstIn_rest hchars _⟩, (MovedTo.refl e.ctx).setPos _, rfl,
      fun h => ?_⟩
    exact List.isEmpty_iff.mp h

/-! ## What comes next -/

/-- The text `R` from `pos` on, with no `?` and no `#` in front of it. -/
structure BehindHost (R pos : List Char) : Prop where
  suffix : pos <:+ R
  mem : ∀ c ∈ R, c = '?' ∨ c = '#' → c ∈ pos

namespace BehindHost

variable {R pos : List Char}

theorem refl (R : List Char) : BehindHost R R := ⟨List.suffix_refl _, fun _ hc _ => hc⟩

theorem cons (h : BehindHost R pos) (hc : c ≠ '?' ∧ c ≠ '#') :
    BehindHost (c :: R) pos := by
  refine ⟨h.suffix.trans (List.suffix_cons ..), fun d hd hmark => ?_⟩
  rcases List.mem_cons.mp hd with rfl | hd
  · exact (hmark.elim hc.1 hc.2).elim
  · exact h.mem d hd hmark

end BehindHost

/-- What the host leaves: the rest of the text, and which parser comes next. -/
inductive HostLeft (R : List Char) (ctx a : Ctx σ) : Prop where
  | error (herror : a.status.hasError = true)
  | ends (hscheme : a.scheme = ctx.scheme) (hvalue : a.status.value = .valid)
      (hnil : a.pos = []) (hpos : BehindHost R a.pos)
  | tail {c : Char} (hscheme : a.scheme = ctx.scheme) (hpos : R = c :: a.pos)
      (hvalue : c = '?' ∧ a.status.value = .validQueries ∨
        c = '#' ∧ a.status.value = .validFragment)
  | path (hscheme : a.scheme = ctx.scheme) (hvalue : a.status.value = .validPath ∨
      a.status.value = .validAuthorityEnd) (hpos : BehindHost R a.pos) (hfront : Front a.pos)
      (hhead : R.head? ≠ some '?' ∧ R.head? ≠ some '#')
  | port (hscheme : a.scheme = ctx.scheme) (hvalue : a.status.value = .validPort)
      (hpos : BehindHost R a.pos) (hhead : R.head? ≠ some '?' ∧ R.head? ≠ some '#')

theorem HostLeft.of_scheme {R : List Char} {ctx ctx' a : Ctx σ} (h : HostLeft R ctx' a)
    (hscheme : ctx'.scheme = ctx.scheme) : HostLeft R ctx a := by
  cases h with
  | error herror => exact .error herror
  | ends h hvalue hnil hpos => exact .ends (h.trans hscheme) hvalue hnil hpos
  | tail h hpos hvalue => exact .tail (h.trans hscheme) hpos hvalue
  | path h hvalue hpos hfront hhead => exact .path (h.trans hscheme) hvalue hpos hfront hhead
  | port h hvalue hpos hhead => exact .port (h.trans hscheme) hvalue hpos hhead

theorem HostLeft.moved {R : List Char} {ctx a a' : Ctx σ} (h : HostLeft R ctx a)
    (hmoved : MovedTo a.pos a a') : HostLeft R ctx a' := by
  cases h with
  | error herror =>
      refine .error ?_
      rw [Status.hasError, hmoved.value]
      exact herror
  | ends hscheme hvalue hnil hpos =>
      rw [← hmoved.value] at hvalue
      rw [← hmoved.pos] at hnil hpos
      exact .ends (hmoved.scheme.trans hscheme) hvalue hnil hpos
  | tail hscheme hpos hvalue =>
      rw [← hmoved.value] at hvalue
      rw [← hmoved.pos] at hpos
      exact .tail (hmoved.scheme.trans hscheme) hpos hvalue
  | path hscheme hvalue hpos hfront hhead =>
      rw [← hmoved.value] at hvalue
      rw [← hmoved.pos] at hpos hfront
      exact .path (hmoved.scheme.trans hscheme) hvalue hpos hfront hhead
  | port hscheme hvalue hpos hhead =>
      rw [← hmoved.value] at hvalue
      rw [← hmoved.pos] at hpos
      exact .port (hmoved.scheme.trans hscheme) hvalue hpos hhead

/-! ## Ports -/

theorem portFollows_iff (pos : List Char) :
    portFollows pos = true ↔ Front (pos.dropWhile isDigit) := by
  rw [portFollows, Front]
  cases (pos.dropWhile isDigit).head? with
  | none => simp
  | some c => simp

/-- What the loop of `parse_port` leaves. -/
inductive PortRead (pos : List Char) (ctx : Ctx σ) : Option ℕ × Ctx σ → Prop where
  | number {value : ℕ} {pos' : List Char} (hpos : BehindHost pos pos') (hfront : Front pos')
      (hfollows : portFollows pos = true) : PortRead pos ctx (some value, { ctx with pos := pos' })
  | invalid {ctx' : Ctx σ} (hscheme : ctx'.scheme = ctx.scheme)
      (hvalue : ctx'.status.value = .portInvalid) (hfollows : portFollows pos = false) :
      PortRead pos ctx (none, ctx')
  | outOfRange {ctx' : Ctx σ} (hvalue : ctx'.status.value = .portOutOfRange) :
      PortRead pos ctx (none, ctx')

theorem portFollows_cons (hdigit : isDigit c = true) (pos : List Char) :
    portFollows (c :: pos) = portFollows pos := by
  rw [portFollows, List.dropWhile_cons_of_pos hdigit, portFollows]

theorem PortRead.cons {r : Option ℕ × Ctx σ}
    (h : PortRead pos ctx r) (hdigit : isDigit c = true) : PortRead (c :: pos) ctx r := by
  have hskip := portFollows_cons hdigit pos
  cases h with
  | number hpos hfront hfollows =>
      refine .number (hpos.cons ⟨?_, ?_⟩) hfront (hskip.trans hfollows)
      · rintro rfl
        exact absurd hdigit (by decide)
      · rintro rfl
        exact absurd hdigit (by decide)
  | invalid hscheme hvalue hfollows => exact .invalid hscheme hvalue (hskip.trans hfollows)
  | outOfRange hvalue => exact .outOfRange hvalue

theorem portLoop_read (hun : Untabbed pos) (value : ℕ) (ctx : Ctx σ) :
    PortRead pos ctx (portLoop standardUriParsingOptions pos value ctx) := by
  induction pos generalizing value with
  | nil => exact .number (.refl _) (by simp [Front]) rfl
  | cons c pos ih =>
      have hhead := hun.head
      have htab : ¬(isTabOrNewline c = true ∧
          standardUriParsingOptions.ignoreTabsOrNewlines = true) := by
        intro h
        rw [hhead.1] at h
        exact Bool.false_ne_true h.1
      rw [portLoop]
      by_cases hdigit : isDigit c = true
      · rw [if_pos hdigit]
        split
        · exact .outOfRange rfl
        · exact (ih hun.tail _).cons hdigit
      · have hstays : (c :: pos).dropWhile isDigit = c :: pos := List.dropWhile_cons_of_neg hdigit
        rw [if_neg hdigit, if_neg htab]
        split
        · rename_i hstop
          have hfront : Front (c :: pos) := by
            rintro d ⟨⟩
            rcases hstop with hc | hc | hc
            · exact .inr (.inl hc)
            · exact absurd hc hhead.2
            · exact hc.imp_right .inr
          exact .number (.refl _) hfront ((portFollows_iff _).mpr (hstays.symm ▸ hfront))
        · rename_i hstop
          refine .invalid rfl rfl (Bool.eq_false_iff.mpr fun hfollows => hstop ?_)
          have hfront := (portFollows_iff _).mp hfollows
          rw [hstays] at hfront
          rcases hfront c rfl with hc | hc | hc
          · exact .inr (.inr (.inl hc))
          · exact .inl hc
          · exact .inr (.inr (.inr hc))

/-- What `parse_port` leaves behind the colon of a special URI. -/
inductive PortLeft (pos : List Char) (ctx a : Ctx σ) : Prop where
  | finished (hscheme : a.scheme = ctx.scheme) (hvalue : a.status.value = .valid)
      (hnil : a.pos = []) (hpos : BehindHost pos a.pos) (hfollows : portFollows pos = true)
  | read (hscheme : a.scheme = ctx.scheme) (hvalue : a.status.value = .validAuthorityEnd)
      (hpos : BehindHost pos a.pos) (hfront : Front a.pos) (hfollows : portFollows pos = true)
  | invalid (hscheme : a.scheme = ctx.scheme) (hvalue : a.status.value = .portInvalid)
      (hfollows : portFollows pos = false)
  | outOfRange (hvalue : a.status.value = .portOutOfRange)

theorem PortLeft.of_portInvalid {ctx a : Ctx σ} (h : PortLeft pos ctx a)
    (hinvalid : a.status.value = .portInvalid) :
    a.scheme = ctx.scheme ∧ portFollows pos = false := by
  cases h with
  | finished hscheme hvalue hnil hpos hfollows => cases hvalue.symm.trans hinvalid
  | read hscheme hvalue hpos hfront hfollows => cases hvalue.symm.trans hinvalid
  | invalid hscheme hvalue hfollows => exact ⟨hscheme, hfollows⟩
  | outOfRange hvalue => cases hvalue.symm.trans hinvalid

theorem PortLeft.hostLeft {ctx a : Ctx σ} (h : PortLeft pos ctx a)
    (hvalid : a.status.value ≠ .portInvalid) : HostLeft (hostRest (':' :: pos)) ctx a := by
  cases h with
  | finished hscheme hvalue hnil hpos hfollows =>
      rw [hostRest_colon, if_pos hfollows]
      exact .ends hscheme hvalue hnil (hpos.cons (by decide))
  | read hscheme hvalue hpos hfront hfollows =>
      rw [hostRest_colon, if_pos hfollows]
      exact .path hscheme (.inr hvalue) (hpos.cons (by decide)) hfront (by simp)
  | invalid hscheme hvalue hfollows => exact absurd hvalue hvalid
  | outOfRange hvalue =>
      refine .error ?_
      rw [Status.hasError, hvalue]
      rfl

theorem parsePort_left (O : Output σ) (hun : Untabbed ctx.pos) :
    Partly (PortLeft ctx.pos ctx) (parsePort standardUriParsingOptions O ctx) := by
  rw [parsePort]
  split
  · rename_i hnil
    exact .finished rfl rfl hnil (.refl _) (by rw [hnil]; rfl)
  · have hread := portLoop_read hun 0 ctx
    rw [if_neg (by decide)]
    generalize portLoop standardUriParsingOptions ctx.pos 0 ctx = r at hread
    cases hread with
    | number hpos hfront hfollows =>
        simp only
        rename_i value pos'
        cases hskip : skipLeadingZeros pos' ctx.pos with
        | error fault => trivial
        | ok beg => exact .read rfl rfl hpos hfront hfollows
    | invalid hscheme hvalue hfollows => exact .invalid hscheme hvalue hfollows
    | outOfRange hvalue => exact .outOfRange hvalue

theorem portLoop_alike (hun : Untabbed pos) (value : ℕ) (ctx : Ctx σ) :
    portLoop standardUriParsingOptions pos value ctx =
      portLoop strictUriParsingOptions pos value ctx := by
  induction pos generalizing value with
  | nil => rfl
  | cons c pos ih =>
      have htab (o : Options) : ¬(isTabOrNewline c = true ∧ o.ignoreTabsOrNewlines = true) := by
        intro h
        rw [hun.head.1] at h
        exact Bool.false_ne_true h.1
      rw [portLoop, portLoop]
      simp only [ih hun.tail, if_neg (htab _)]

theorem parsePort_alike (O : Output σ) (hun : Untabbed ctx.pos) :
    parsePort standardUriParsingOptions O ctx = parsePort strictUriParsingOptions O ctx := by
  rw [parsePort, parsePort, portLoop_alike hun]
  rfl

/-! ## Addresses in brackets -/

theorem afterIpv6_left (ctx : Ctx σ) : HostLeft ctx.pos ctx (afterIpv6 ctx) := by
  cases hpos : ctx.pos with
  | nil =>
      have hafter : afterIpv6 ctx = ctx.setValid .valid := by rw [afterIpv6, hpos]
      have hbehind : BehindHost [] (ctx.setValid .valid).pos := by
        rw [Ctx.setValid_pos, hpos]
        exact .refl []
      rw [hafter]
      exact .ends rfl rfl hpos hbehind
  | cons c pos =>
      rw [afterIpv6.eq_def, hpos]
      simp only
      split
      · refine .path rfl (.inl rfl) (hpos ▸ .refl _) ?_ (by simp)
        simp [Front, hpos]
      · exact .port rfl rfl ((BehindHost.refl _).cons (by decide)) (by simp)
      · exact .tail rfl rfl (.inr ⟨rfl, rfl⟩)
      · exact .tail rfl rfl (.inl ⟨rfl, rfl⟩)
      · exact .error rfl

theorem dropWhile_bracket {a : List Char} (h : ']' ∉ a) (rest : List Char) :
    (a ++ ']' :: rest).dropWhile (· ≠ ']') = ']' :: rest := by
  rw [List.dropWhile_append_of_pos]
  · rfl
  · intro c hc
    exact decide_eq_true fun heq => h (heq ▸ hc)

theorem inetPton6_bracket {text rest : List Char}
    (hstatus : (Ip.inetPton6 text (List.replicate 16 0) ']').status = .validSpecial)
    (hsrc : (Ip.inetPton6 text (List.replicate 16 0) ']').src = ']' :: rest) :
    (text.dropWhile (· ≠ ']')).tail = rest := by
  obtain ⟨e, a, rest', htext, ha, hstops⟩ :=
    Ip.address_of_inetPton6 Ip.not_isAddressChar_bracket List.length_replicate
      (show (Ip.inetPton6 text (List.replicate 16 0) ']').status.isValid = true by
        rw [hstatus]
        rfl)
  have hbracket : ']' ∉ a := fun hmem => Ip.not_isAddressChar_bracket (ha.isAddressChar hmem)
  rw [hstatus, hsrc] at hstops
  cases hstops with
  | special => rw [htext, dropWhile_bracket hbracket, List.tail_cons]
  | colon =>
      have hcolon : ']' ∉ a ++ [':'] := by
        rw [List.mem_append, not_or]
        exact ⟨hbracket, by decide⟩
      have hsplit : a ++ ':' :: ']' :: rest = (a ++ [':']) ++ ']' :: rest := by simp
      rw [htext, hsplit, dropWhile_bracket hcolon, List.tail_cons]

theorem parseHostIpv6_left (O : Output σ) {rest : List Char} (hpos : ctx.pos = '[' :: rest) :
    Partly (HostLeft (hostRest ('[' :: rest)) ctx) (parseHostIpv6 O ctx) := by
  rw [parseHostIpv6]
  split
  · exact .error rfl
  · rw [hpos, advance_one_cons, ok_bind, hostRest_bracket]
    have hbracket : ∀ rest', (Ip.inetPton6 rest (List.replicate 16 0) ']').status = .validSpecial →
        (Ip.inetPton6 rest (List.replicate 16 0) ']').src = ']' :: rest' →
        (rest.dropWhile (· ≠ ']')).tail = rest' := fun rest' => inetPton6_bracket
    generalize Ip.inetPton6 rest (List.replicate 16 0) ']' = r at hbracket
    simp only
    split
    · exact .error rfl
    · rename_i hstatus
      cases hsrc : r.src with
      | nil => trivial
      | cons c rest' =>
          rw [deref_cons, ok_bind]
          split
          · rename_i hc
            subst hc
            have hleft := afterIpv6_left { ctx with
              pos := rest', out := O.setValue .host ('[' :: rest) rest' ctx.out }
            rw [hbracket rest' hstatus hsrc]
            exact hleft.of_scheme rfl
          · exact .error rfl
    · rename_i hvalid hspecial
      refine .error ?_
      show (UriStatus.ofInetPton6 r.status).hasError = true
      cases hstatus : r.status with
      | valid => exact absurd hstatus hvalid
      | validSpecial => exact absurd hstatus hspecial
      | _ => rfl

end Webpp.Uri
