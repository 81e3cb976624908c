import Webpp.Uri.UserInfoRounds

/-!
# What is read of a host

`parse_authority_pieces` reads a host in rounds, each of them a search with rounds of its own.
Here the two loops are followed character by character: a character that the search passes over
only moves the state from which the round starts. What is read is the same for any text behind
the host that begins with a character at which the search stops.
-/

namespace Webpp.Uri

open ComponentEncoder Loop Webpp.Text

variable {σ : Type}

/-! ## Characters -/

/-- What a host is read to: its end, a `%` that is its last character, or a character in it that
ends the loop, with what is behind it. -/
inductive HostEnd where
  | whole
  | lonePercent
  | stopped (behind : List Char)
  deriving DecidableEq

/-- What of the host is not read. -/
def HostEnd.behind : HostEnd → List Char
  | whole | lonePercent => []
  | stopped behind => behind

section Reading

variable (o : Options) (O : Output σ)

/-- What is written for a character at which the search stops, if the loop goes on behind it. -/
def passedOver (c : Char) : Option (List Char) :=
  if O.isModifiable && upperAlpha c then some [toLowerCopy c]
  else if c = '.' then some ['.']
  else if isTabOrNewline c && o.ignoreTabsOrNewlines then
    some (if O.isModifiable then [] else [c])
  else none

def pushText (chars : List Char) (r : List Char × HostEnd) : List Char × HostEnd :=
  (chars ++ r.1, r.2)

/-- The text that is read of a host, and what it is read to. -/
def readHost : List Char → List Char × HostEnd
  | [] => ([], .whole)
  | c :: host =>
      if O.isModifiable = true ∧ c = '%' then
        match host with
        | [] => ([], .lonePercent)
        | [_] => ([], .whole)
        | c1 :: c2 :: host =>
            match decodedChar c1 c2 with
            | some d => pushText [d] (readHost host)
            | none =>
                -- the two characters behind the `%` are skipped, but the second one counts
                match passedOver o O c2 with
                | some chars => pushText chars (readHost host)
                | none => ([], .stopped (c2 :: host))
      else if (authorityInteresting O true).contains c then
        match passedOver o O c with
        | some chars => pushText chars (readHost host)
        | none => ([], .stopped (c :: host))
      else pushText [c] (readHost host)

end Reading

/-- A character behind a host: the search stops at it, and it is no digit of an escape. -/
structure EndsHost (O : Output σ) (c : Char) : Prop where
  stops : Stops O c
  percent : c ≠ '%'
  digit : hexDigitSafe c = none

theorem endsHost_of_mem (O : Output σ) {c : Char} (hc : c ∈ [':', '/']) : EndsHost O c := by
  have hforbidden : ∀ c ∈ [':', '/'], forbiddenDomains.contains c = true := by decide
  have hupper : ∀ c ∈ [':', '/'], upperAlpha c = false := by decide
  have hpercent : ∀ c ∈ [':', '/'], c ≠ '%' := by decide
  have hdigit : ∀ c ∈ [':', '/'], hexDigitSafe c = none := by decide
  exact ⟨stops_of_forbidden (hforbidden c hc) (hupper c hc), hpercent c hc, hdigit c hc⟩

/-! ## The search -/

section Search

variable {chars : AsciiBitmap} {c c1 c2 d : Char} {pos rest written : List Char}

theorem tolowerStep_plain (hc : chars.contains c = false) (hpercent : c ≠ '%')
    (written pos : List Char) :
    tolowerStep chars (written, c :: pos) = tolowerStep chars (written ++ [c], pos) := by
  have hdecode : decodeUriComponent chars (c :: pos) =
      (c :: (decodeUriComponent chars pos).1, (decodeUriComponent chars pos).2) := by
    rw [decodeUriComponent_cons hpercent, hc, if_neg Bool.false_ne_true]
  cases pos with
  | nil =>
      rw [tolowerStep, tolowerStep, if_neg (List.cons_ne_nil _ _), if_pos rfl]
      dsimp only
      rw [hdecode]
      rfl
  | cons c' pos =>
      rw [tolowerStep, tolowerStep, if_neg (List.cons_ne_nil _ _), if_neg (List.cons_ne_nil _ _)]
      dsimp only
      rw [hdecode]
      simp only [List.append_assoc, List.singleton_append]

theorem tolowerStep_escape (hd : decodedChar c1 c2 = some d) (written rest : List Char) :
    tolowerStep chars (written, '%' :: c1 :: c2 :: rest) =
      tolowerStep chars (written ++ [d], rest) := by
  have hdecode : decodeUriComponent chars ('%' :: c1 :: c2 :: rest) =
      (d :: (decodeUriComponent chars rest).1, (decodeUriComponent chars rest).2) := by
    rw [decodeUriComponent, if_pos rfl, hd]
  cases rest with
  | nil =>
      rw [tolowerStep, tolowerStep, if_neg (List.cons_ne_nil _ _), if_pos rfl]
      dsimp only
      rw [hdecode]
      rfl
  | cons c rest =>
      rw [tolowerStep, tolowerStep, if_neg (List.cons_ne_nil _ _), if_neg (List.cons_ne_nil _ _)]
      dsimp only
      rw [hdecode]
      simp only [List.append_assoc, List.singleton_append]

theorem tolowerStep_stop {pos : List Char} (hne : pos ≠ [])
    (h : decodeUriComponent chars pos = ([], c :: rest, false)) (written : List Char) :
    tolowerStep chars (written, pos) =
      if upperAlpha c then .ok (.next (written ++ [toLowerCopy c], rest))
      else .ok (.done (written, c :: rest, false)) := by
  rw [tolowerStep]
  dsimp only
  rw [if_neg hne, h]
  simp only [Bool.false_eq_true, if_false, deref_cons, ok_bind, List.append_nil, List.tail_cons]
  rfl

theorem tolowerStep_shorter {s s' : List Char × List Char}
    (h : tolowerStep chars s = .ok (.next s')) : s'.2.length < s.2.length := by
  obtain ⟨written, pos⟩ := s
  obtain ⟨hsuffix, -⟩ := decodeUriComponent_spec chars pos
  rw [tolowerStep] at h
  dsimp only at h hsuffix ⊢
  split at h
  · cases h
  · split at h
    · cases h
    · cases hleft : (decodeUriComponent chars pos).2.1 with
      | nil =>
          rw [hleft] at h
          cases h
      | cons c left =>
          rw [hleft, deref_cons, ok_bind] at h
          split at h
          · cases h
            rw [hleft] at hsuffix
            exact Nat.lt_of_lt_of_le (Nat.lt_succ_self _) hsuffix.length_le
          · cases h

/-- The loop of `decode_or_tolower`. -/
def lowering (chars : AsciiBitmap) (written pos : List Char) :
    Run (List Char × List Char × Bool) :=
  loop (tolowerStep chars) .diverges (pos.length + 1) (written, pos)

theorem lowering_of_leadsTo {written' pos' : List Char}
    (h : LeadsTo (tolowerStep chars) .diverges (fun s => s.2.length) (written, pos)
      (written', pos')) : lowering chars written pos = lowering chars written' pos' := by
  obtain ⟨n, hn, hloop⟩ := h _ (Nat.lt_succ_self _)
  rw [lowering, hloop, lowering]
  exact loop_enough (fun s => s.2.length) (fun _ _ => tolowerStep_shorter) hn (Nat.lt_succ_self _)

theorem lowering_plain (hc : chars.contains c = false) (hpercent : c ≠ '%')
    (written pos : List Char) :
    lowering chars written (c :: pos) = lowering chars (written ++ [c]) pos :=
  lowering_of_leadsTo (leadsTo_of_eq (tolowerStep_plain hc hpercent written pos)
    (Nat.lt_succ_self _))

theorem lowering_escape (hd : decodedChar c1 c2 = some d) (written rest : List Char) :
    lowering chars written ('%' :: c1 :: c2 :: rest) = lowering chars (written ++ [d]) rest := by
  refine lowering_of_leadsTo (leadsTo_of_eq (tolowerStep_escape hd written rest) ?_)
  simp only [List.length_cons]
  omega

theorem tolowerStep_append (front : List Char) (s : List Char × List Char) :
    tolowerStep chars (front ++ s.1, s.2) = (tolowerStep chars s).map fun flow =>
      match flow with
      | .next s' => .next (front ++ s'.1, s'.2)
      | .done r => .done (front ++ r.1, r.2) := by
  obtain ⟨written, pos⟩ := s
  rw [tolowerStep, tolowerStep]
  dsimp only
  split
  · rfl
  · split
    · rw [List.append_assoc]
      rfl
    · cases (decodeUriComponent chars pos).2.1 with
      | nil => rfl
      | cons c left =>
          rw [deref_cons, ok_bind, ok_bind]
          split
          · simp only [List.append_assoc]
            rfl
          · rw [List.append_assoc]
            rfl

theorem lowering_append (front written pos : List Char) :
    lowering chars (front ++ written) pos =
      (lowering chars written pos).map fun r => (front ++ r.1, r.2) := by
  have hloop : ∀ n (s : List Char × List Char),
      loop (tolowerStep chars) Fault.diverges n (front ++ s.1, s.2) =
        (loop (tolowerStep chars) Fault.diverges n s).map fun r => (front ++ r.1, r.2) := by
    intro n
    induction n with
    | zero => exact fun s => rfl
    | succ n ih =>
        intro s
        rw [loop, loop, tolowerStep_append front s]
        cases tolowerStep chars s with
        | error fault => rfl
        | ok flow =>
            cases flow with
            | next s' => exact ih s'
            | done r => rfl
  exact hloop _ (written, pos)

end Search

/-! ## The encoder -/

section Encoder

variable {O : Output σ} {e : ComponentEncoder σ} {c c1 c2 d : Char} {pos rest : List Char}

theorem decodeOrTolower_lowering (hmodifiable : O.isModifiable = true) (chars : AsciiBitmap) :
    decodeOrTolower O .host chars e = lowering chars [] e.ctx.pos >>= fun r =>
      pure (r.2.2, (appendTo O .host r.1 e).setPos r.2.1) := by
  rw [decodeOrTolower, if_pos hmodifiable]
  rfl

/-- The encoder behind what is read in front of `pos`, for which `chars` is written. -/
def passTo (O : Output σ) (chars pos : List Char) (e : ComponentEncoder σ) : ComponentEncoder σ :=
  if O.isModifiable then (appendTo O .host chars e).setPos pos else e.setPos pos

theorem decodeOrTolower_passTo (hO : O.Appends) (hmodifiable : O.isModifiable = true)
    {bitmap : AsciiBitmap} {chars : List Char}
    (h : lowering bitmap [] e.ctx.pos = lowering bitmap chars pos) :
    decodeOrTolower O .host bitmap e = decodeOrTolower O .host bitmap (passTo O chars pos e) := by
  have hfront : lowering bitmap chars pos =
      (lowering bitmap [] pos).map fun r => (chars ++ r.1, r.2) := by
    rw [← lowering_append, List.append_nil]
  have hpos : (passTo O chars pos e).ctx.pos = pos := by
    rw [passTo, if_pos hmodifiable, setPos_pos]
  rw [decodeOrTolower_lowering hmodifiable, decodeOrTolower_lowering hmodifiable, h, hfront, hpos]
  cases lowering bitmap [] pos with
  | error fault => rfl
  | ok r =>
      have hout := hO .host chars r.1 e.ctx.out hmodifiable
      show Except.ok _ = Except.ok _
      rw [passTo, if_pos hmodifiable, appendTo, appendTo, appendTo, ← hout]
      rfl

theorem interesting_of_modifiable (hmodifiable : O.isModifiable = true) (c : Char) :
    (authorityInteresting O true).contains c =
      (forbiddenDomains.contains c || upperAlpha.contains c) := by
  rw [authorityInteresting, if_neg (by decide), if_pos hmodifiable, AsciiBitmap.contains_union]

theorem contains_of_upperAlpha (hc : upperAlpha c = true) : upperAlpha.contains c = true := by
  rw [AsciiBitmap.contains, hc, Bool.and_true, decide_eq_true_eq]
  have hle := of_decide_eq_true ((Bool.and_eq_true _ _).mp hc).2
  exact Nat.lt_of_le_of_lt hle (by decide)

theorem ne_percent_of_contains (hc : (authorityInteresting O true).contains c = false) :
    c ≠ '%' := by
  rintro rfl
  rw [(interesting_of_stop O).2] at hc
  cases hc

theorem search_plain (hO : O.Appends) (hpos : e.ctx.pos = c :: pos)
    (hc : (authorityInteresting O true).contains c = false) :
    decodeOrTolower O .host (authorityInteresting O true) e =
      decodeOrTolower O .host (authorityInteresting O true) (passTo O [c] pos e) := by
  by_cases hmodifiable : O.isModifiable = true
  · refine decodeOrTolower_passTo hO hmodifiable ?_
    rw [hpos]
    exact lowering_plain hc (ne_percent_of_contains hc) [] pos
  · rw [decodeOrTolower, decodeOrTolower, if_neg hmodifiable, if_neg hmodifiable, hpos, passTo,
      if_neg hmodifiable, setPos_pos, AsciiBitmap.findFirstIn, hc, if_neg Bool.false_ne_true]
    rfl

theorem search_upper (hO : O.Appends) (hmodifiable : O.isModifiable = true)
    (hpos : e.ctx.pos = c :: pos) (hc : upperAlpha c = true) :
    decodeOrTolower O .host (authorityInteresting O true) e =
      decodeOrTolower O .host (authorityInteresting O true) (passTo O [toLowerCopy c] pos e) := by
  have hcontains : (authorityInteresting O true).contains c = true := by
    rw [interesting_of_modifiable hmodifiable, contains_of_upperAlpha hc, Bool.or_true]
  have hpercent : c ≠ '%' := by
    rintro rfl
    exact absurd hc (by decide)
  have hdecode : decodeUriComponent (authorityInteresting O true) (c :: pos) =
      ([], c :: pos, false) := by
    rw [decodeUriComponent_cons hpercent, if_pos hcontains]
  have hstep := tolowerStep_stop (List.cons_ne_nil c pos) hdecode []
  rw [if_pos hc] at hstep
  refine decodeOrTolower_passTo hO hmodifiable ?_
  rw [hpos]
  exact lowering_of_leadsTo (leadsTo_of_next hstep (Nat.lt_succ_self _))

theorem search_escape (hO : O.Appends) (hmodifiable : O.isModifiable = true)
    (hpos : e.ctx.pos = '%' :: c1 :: c2 :: rest) (hd : decodedChar c1 c2 = some d) :
    decodeOrTolower O .host (authorityInteresting O true) e =
      decodeOrTolower O .host (authorityInteresting O true) (passTo O [d] rest e) := by
  refine decodeOrTolower_passTo hO hmodifiable ?_
  rw [hpos]
  exact lowering_escape hd [] rest

theorem decodeUriComponent_broken {chars : AsciiBitmap} (hd : decodedChar c1 c2 = none)
    (rest : List Char) :
    decodeUriComponent chars ('%' :: c1 :: c2 :: rest) = ([], c2 :: rest, false) := by
  rw [decodeUriComponent, if_pos rfl, hd]

theorem search_broken (hO : O.Appends) (hmodifiable : O.isModifiable = true)
    (hpos : e.ctx.pos = '%' :: c1 :: c2 :: rest) (hd : decodedChar c1 c2 = none)
    (hc : (authorityInteresting O true).contains c2 = true) (hpercent : c2 ≠ '%') :
    decodeOrTolower O .host (authorityInteresting O true) e =
      decodeOrTolower O .host (authorityInteresting O true) (passTo O [] (c2 :: rest) e) := by
  have hdecode : decodeUriComponent (authorityInteresting O true) (c2 :: rest) =
      ([], c2 :: rest, false) := by
    rw [decodeUriComponent_cons hpercent, if_pos hc]
  have hstep : tolowerStep (authorityInteresting O true) ([], '%' :: c1 :: c2 :: rest) =
      tolowerStep (authorityInteresting O true) ([], c2 :: rest) := by
    rw [tolowerStep_stop (List.cons_ne_nil _ _) (decodeUriComponent_broken hd rest),
      tolowerStep_stop (List.cons_ne_nil _ _) hdecode]
  refine decodeOrTolower_passTo hO hmodifiable ?_
  rw [hpos]
  refine lowering_of_leadsTo (leadsTo_of_eq hstep ?_)
  simp only [List.length_cons]
  omega

theorem search_stop_decoding (hmodifiable : O.isModifiable = true) (hne : e.ctx.pos ≠ [])
    (hdecode : decodeUriComponent (authorityInteresting O true) e.ctx.pos =
      ([], c :: rest, false)) (hc : upperAlpha c = false) :
    decodeOrTolower O .host (authorityInteresting O true) e =
      .ok (false, passTo O [] (c :: rest) e) := by
  have hstep := tolowerStep_stop hne hdecode []
  rw [if_neg (by rw [hc]; exact Bool.false_ne_true)] at hstep
  rw [decodeOrTolower_lowering hmodifiable, lowering, loop_of_done hstep, ok_bind, passTo,
    if_pos hmodifiable]
  rfl

theorem search_stop (hpos : e.ctx.pos = c :: rest) (hc : Stops O c)
    (hpercent : O.isModifiable = true → c ≠ '%') :
    decodeOrTolower O .host (authorityInteresting O true) e =
      .ok (false, passTo O [] (c :: rest) e) := by
  by_cases hmodifiable : O.isModifiable = true
  · have hne : e.ctx.pos ≠ [] := by
      rw [hpos]
      exact List.cons_ne_nil _ _
    refine search_stop_decoding hmodifiable hne ?_ (hc.2 hmodifiable)
    rw [hpos, decodeUriComponent_cons (hpercent hmodifiable), if_pos hc.1]
  · rw [decodeOrTolower, if_neg hmodifiable, hpos, passTo, if_neg hmodifiable,
      AsciiBitmap.findFirstIn, if_pos hc.1]
    rfl

end Encoder

/-! ## The hostname -/

/-- The hostname of an output: of a segregated one the segments with dots between them. -/
def hostname (O : Output σ) (out : σ) : List Char :=
  if O.isSegregated then ['.'].intercalate (O.segments .host out) else O.view .host out

/-- There is no host in the output. -/
structure NoHost (O : Output σ) (out : σ) : Prop where
  view : O.isModifiable = true → O.isSegregated = false → O.view .host out = []
  segments : O.isSegregated = true → O.segments .host out = []

/-- What the operations on a host and a port do to the host, and what they leave of the
scheme. -/
structure StoresHost (O : Output σ) : Prop where
  appends : O.Appends
  view_append : O.isModifiable = true → O.isSegregated = false → ∀ chars out,
    O.view .host (O.append .host chars out) = O.view .host out ++ chars
  segments_append : O.isModifiable = true → O.isSegregated = true → ∀ chars out,
    O.segments .host (O.append .host chars out) = appendLast (O.segments .host out) chars
  segments_edit : O.isSegregated = true → ∀ g out,
    O.segments .host (O.editSegments .host g out) = g (O.segments .host out)
  clear : O.isModifiable = true → ∀ out, NoHost O (O.clear .host out)
  port : O.isModifiable = true ∨ O.isSegregated = true → ∀ start stop out,
    hostname O (O.setValue .port start stop out) = hostname O out ∧
      O.segments .host (O.setValue .port start stop out) = O.segments .host out
  scheme_append : ∀ chars out, O.view .scheme (O.append .host chars out) = O.view .scheme out
  scheme_edit : ∀ g out, O.view .scheme (O.editSegments .host g out) = O.view .scheme out

section Join

variable {α : Type} (sep : List α)

theorem intercalate_concat_append (segments : List (List α)) (segment chars : List α) :
    sep.intercalate (segments ++ [segment ++ chars]) =
      sep.intercalate (segments ++ [segment]) ++ chars := by
  induction segments with
  | nil => rw [List.nil_append, List.nil_append, List.intercalate_singleton,
      List.intercalate_singleton]
  | cons first segments ih =>
      rw [List.cons_append, List.cons_append, List.intercalate_cons_of_ne_nil (by simp),
        List.intercalate_cons_of_ne_nil (by simp), ih, List.append_assoc, List.append_assoc,
        List.append_assoc]

theorem intercalate_concat_concat (segments : List (List α)) (segment last : List α) :
    sep.intercalate (segments ++ [segment] ++ [last]) =
      sep.intercalate (segments ++ [segment]) ++ sep ++ last := by
  induction segments with
  | nil => rw [List.nil_append, List.singleton_append, List.intercalate_cons_cons,
      List.intercalate_singleton, List.intercalate_singleton, List.append_assoc]
  | cons first segments ih =>
      rw [List.cons_append, List.cons_append, List.intercalate_cons_of_ne_nil (by simp),
        List.intercalate_cons_of_ne_nil (by simp), ih]
      simp only [List.append_assoc]

end Join

theorem appendLast_concat (segments : List (List Char)) (segment chars : List Char) :
    appendLast (segments ++ [segment]) chars = segments ++ [segment ++ chars] := by
  simp [appendLast]

theorem hostname_append {O : Output σ} (hO : StoresHost O) (hmodifiable : O.isModifiable = true)
    (chars : List Char) {out : σ} (hsegments : O.isSegregated = true → O.segments .host out ≠ []) :
    hostname O (O.append .host chars out) = hostname O out ++ chars := by
  rw [hostname, hostname]
  by_cases hsegregated : O.isSegregated = true
  · rw [if_pos hsegregated, if_pos hsegregated, hO.segments_append hmodifiable hsegregated]
    obtain ⟨segments, segment, hlast⟩ :=
      (List.eq_nil_or_concat' _).resolve_left (hsegments hsegregated)
    rw [hlast, appendLast_concat, intercalate_concat_append]
  · rw [if_neg hsegregated, if_neg hsegregated]
    exact hO.view_append hmodifiable (Bool.eq_false_iff.mpr hsegregated) _ _

/-! ## What is stored -/

/-- The encoder has read `read` of the host at the position of `start`, and `text` is what is
stored of it so far, or what the pieces of the input are that will be stored. -/
structure HasRead (O : Output σ) (start : Ctx σ) (read text : List Char)
    (e : ComponentEncoder σ) : Prop where
  beg : e.ctx.beg = start.beg
  pos : start.pos = read ++ e.ctx.pos
  scheme : O.view .scheme e.ctx.out = O.view .scheme start.out
  written : O.isModifiable = true →
    hostname O e.ctx.out = text ∧ (O.isSegregated = true → O.segments .host e.ctx.out ≠ [])
  copied : O.isModifiable = false → text = read
  untouched : O.isModifiable = false → O.isSegregated = false →
    e.ctx.out = start.out ∧ e.beg = start.pos
  segments : O.isModifiable = false → O.isSegregated = true →
    ∃ segment, e.beg = segment ++ e.ctx.pos ∧
      ['.'].intercalate (O.segments .host e.ctx.out ++ [segment]) = read

section Stored

variable {O : Output σ} {start : Ctx σ} {read text pos piece chars : List Char}
  {e : ComponentEncoder σ} {c : Char}

theorem HasRead.of_modifiable (hmodifiable : O.isModifiable = true)
    (hbeg : e.ctx.beg = start.beg) (hpos : start.pos = read ++ e.ctx.pos)
    (hscheme : O.view .scheme e.ctx.out = O.view .scheme start.out)
    (htext : hostname O e.ctx.out = text)
    (hsegments : O.isSegregated = true → O.segments .host e.ctx.out ≠ []) :
    HasRead O start read text e where
  beg := hbeg
  pos := hpos
  scheme := hscheme
  written _ := ⟨htext, hsegments⟩
  copied hfalse := absurd (hmodifiable.symm.trans hfalse) (by decide)
  untouched hfalse := absurd (hmodifiable.symm.trans hfalse) (by decide)
  segments hfalse := absurd (hmodifiable.symm.trans hfalse) (by decide)

theorem HasRead.of_not_modifiable (hmodifiable : O.isModifiable = false)
    (hbeg : e.ctx.beg = start.beg) (hpos : start.pos = read ++ e.ctx.pos)
    (hscheme : O.view .scheme e.ctx.out = O.view .scheme start.out) (hcopied : text = read)
    (huntouched : O.isModifiable = false → O.isSegregated = false →
      e.ctx.out = start.out ∧ e.beg = start.pos)
    (hsegments : O.isSegregated = true → ∃ segment, e.beg = segment ++ e.ctx.pos ∧
      ['.'].intercalate (O.segments .host e.ctx.out ++ [segment]) = read) :
    HasRead O start read text e where
  beg := hbeg
  pos := hpos
  scheme := hscheme
  written htrue := absurd (htrue.symm.trans hmodifiable) (by decide)
  copied _ := hcopied
  untouched := huntouched
  segments _ := hsegments

/-- The position moves over `piece`, and a modifiable output is given `chars` for it. -/
theorem HasRead.passTo (hO : StoresHost O) (h : HasRead O start read text e)
    (piece chars : List Char) (hpos : e.ctx.pos = piece ++ pos)
    (hchars : O.isModifiable = false → chars = piece) :
    HasRead O start (read ++ piece) (text ++ chars) (passTo O chars pos e) := by
  cases hmodifiable : O.isModifiable with
  | true =>
      obtain ⟨htext, hsegments⟩ := h.written hmodifiable
      rw [Uri.passTo, if_pos hmodifiable]
      refine .of_modifiable hmodifiable h.beg ?_ ?_ ?_ fun hsegregated => ?_
      · rw [h.pos, hpos, List.append_assoc]
        rfl
      · exact (hO.scheme_append chars _).trans h.scheme
      · rw [← htext]
        exact hostname_append hO hmodifiable chars hsegments
      · show O.segments .host (O.append .host chars e.ctx.out) ≠ []
        obtain ⟨segments, segment, hlast⟩ :=
          (List.eq_nil_or_concat' _).resolve_left (hsegments hsegregated)
        rw [hO.segments_append hmodifiable hsegregated, hlast, appendLast_concat]
        exact List.concat_ne_nil _ _
  | false =>
      rw [Uri.passTo, if_neg (by rw [hmodifiable]; exact Bool.false_ne_true)]
      refine .of_not_modifiable hmodifiable h.beg ?_ h.scheme ?_ h.untouched fun hsegregated => ?_
      · rw [h.pos, hpos, List.append_assoc]
        rfl
      · rw [h.copied hmodifiable, hchars hmodifiable]
      · obtain ⟨segment, hbeg, hjoin⟩ := h.segments hmodifiable hsegregated
        refine ⟨segment ++ piece, ?_, ?_⟩
        · show e.beg = segment ++ piece ++ pos
          rw [hbeg, hpos, List.append_assoc]
        · rw [← hjoin]
          exact intercalate_concat_append _ _ _ _

theorem HasRead.setWarning (h : HasRead O start read text e) (warning : UriWarning) :
    HasRead O start read text (e.setWarning warning) :=
  ⟨h.beg, h.pos, h.scheme, h.written, h.copied, h.untouched, h.segments⟩

theorem HasRead.setValid (h : HasRead O start read text e) (value : UriStatus) :
    HasRead O start read text (e.setValid value) :=
  ⟨h.beg, h.pos, h.scheme, h.written, h.copied, h.untouched, h.segments⟩

/-- A character that is not written into a modifiable output. -/
theorem HasRead.ignoreCharacter (hO : StoresHost O) (h : HasRead O start read text e)
    (hpos : e.ctx.pos = c :: pos) (warning : UriWarning) :
    ∃ e', (e.setWarning warning).ignoreCharacter = .ok e' ∧ e'.ctx.pos = pos ∧
      HasRead O start (read ++ [c]) (text ++ if O.isModifiable then [] else [c]) e' := by
  have hadvance : advance (e.setWarning warning).ctx.pos 1 = .ok pos := by
    show advance e.ctx.pos 1 = _
    rw [hpos, advance_one_cons]
  refine ⟨(e.setPos pos).setWarning warning, ?_, rfl, .setWarning ?_ warning⟩
  · rw [ComponentEncoder.ignoreCharacter, hadvance]
    rfl
  · cases hmodifiable : O.isModifiable with
    | true =>
        obtain ⟨htext, hsegments⟩ := h.written hmodifiable
        refine .of_modifiable hmodifiable h.beg ?_ h.scheme ?_ hsegments
        · rw [h.pos, hpos, List.append_assoc]
          rfl
        · rw [if_pos rfl, List.append_nil]
          exact htext
    | false =>
        have hmoved := h.passTo hO [c] [c] hpos fun _ => rfl
        rwa [Uri.passTo, if_neg (by rw [hmodifiable]; exact Bool.false_ne_true)] at hmoved

theorem HasRead.withBeg (h : HasRead O start read text e) (hmodifiable : O.isModifiable = true)
    (segmentBegin : List Char) : HasRead O start read text { e with beg := segmentBegin } :=
  .of_modifiable hmodifiable h.beg h.pos h.scheme (h.written hmodifiable).1
    (h.written hmodifiable).2

theorem isVec_host (O : Output σ) : isVec O .host = O.isSegregated := Bool.and_true _

theorem isSeg_host (O : Output σ) : isSeg O .host = O.isSegregated := by
  rw [isSeg, isVec_host, isMap, show (Components.host == Components.queries) = false from rfl,
    Bool.and_false, Bool.or_false]

theorem skipSeparator_host (hpos : e.ctx.pos = c :: pos) :
    skipSeparator O .host e =
      .ok (if O.isModifiable && !O.isSegregated then (appendTo O .host [c] e).setPos pos
        else e.setPos pos) := by
  rw [skipSeparator, hpos, advance_one_cons, ok_bind, isSeg_host]
  split <;> rfl

theorem HasRead.startSegment (hO : StoresHost O) (hmodifiable : O.isModifiable = true)
    (hsegregated : O.isSegregated = true) (hpos : e.ctx.pos = c :: pos)
    (h : HasRead O start read text e) :
    HasRead O start (read ++ [c]) (text ++ ['.']) (startSegment O .host (e.setPos pos)) := by
  obtain ⟨htext, hsegments⟩ := h.written hmodifiable
  have hedit := hO.segments_edit hsegregated (fun segments => segments ++ [[]]) e.ctx.out
  rw [ComponentEncoder.startSegment, isVec_host, hsegregated, hmodifiable, if_pos (by decide)]
  refine .of_modifiable hmodifiable h.beg ?_ ?_ ?_ fun _ => ?_
  · rw [h.pos, hpos, List.append_assoc]
    rfl
  · exact (hO.scheme_edit _ _).trans h.scheme
  · obtain ⟨segments, segment, hlast⟩ :=
      (List.eq_nil_or_concat' _).resolve_left (hsegments hsegregated)
    rw [← htext, hostname, hostname, if_pos hsegregated, if_pos hsegregated]
    show ['.'].intercalate (O.segments .host (O.editSegments .host _ e.ctx.out)) = _
    rw [hedit, hlast, intercalate_concat_concat, List.append_nil]
  · show O.segments .host (O.editSegments .host _ e.ctx.out) ≠ []
    rw [hedit]
    exact List.concat_ne_nil _ _

theorem HasRead.endSegment (hO : StoresHost O) (hmodifiable : O.isModifiable = false)
    (hsegregated : O.isSegregated = true) (hpos : e.ctx.pos = '.' :: pos)
    (h : HasRead O start read text e) :
    HasRead O start (read ++ ['.']) (text ++ ['.'])
      ((endSegment O .host e).setPos pos).resetBegin := by
  obtain ⟨segment, hbeg, hjoin⟩ := h.segments hmodifiable hsegregated
  have hslice : slice e.beg e.ctx.pos = segment := by
    rw [hbeg, slice_append]
  have hedit := hO.segments_edit hsegregated
    (fun segments => segments ++ [slice e.beg e.ctx.pos]) e.ctx.out
  rw [ComponentEncoder.endSegment, endSegmentOf, isVec_host, hsegregated, hmodifiable,
    if_pos (by decide)]
  refine .of_not_modifiable hmodifiable h.beg ?_ ?_ ?_ (fun _ hfalse => ?_) fun _ => ⟨[], rfl, ?_⟩
  · rw [h.pos, hpos, List.append_assoc]
    rfl
  · exact (hO.scheme_edit _ _).trans h.scheme
  · rw [h.copied hmodifiable]
  · exact absurd (hsegregated.symm.trans hfalse) (by decide)
  · show ['.'].intercalate (O.segments .host (O.editSegments .host _ e.ctx.out) ++ [[]]) = _
    rw [hedit, hslice, intercalate_concat_concat, hjoin, List.append_nil]

theorem HasRead.nextSegment (hO : StoresHost O) (h : HasRead O start read text e)
    (hpos : e.ctx.pos = '.' :: pos) :
    ∃ e', nextSegment O .host e = .ok e' ∧ e'.ctx.pos = pos ∧
      HasRead O start (read ++ ['.']) (text ++ ['.']) e' := by
  have hvec := isVec_host O
  rw [ComponentEncoder.nextSegment, isSeg_host]
  cases hsegregated : O.isSegregated with
  | true =>
      rw [hsegregated] at hvec
      rw [if_pos rfl]
      cases hmodifiable : O.isModifiable with
      | true =>
          have hskip := skipSeparator_host (O := O) hpos
          rw [hmodifiable, hsegregated, if_neg (by decide)] at hskip
          rw [if_pos rfl, hskip, ok_bind, resetSegmentStart, hmodifiable, Bool.or_true, if_pos rfl]
          have hstart := (h.startSegment hO hmodifiable hsegregated hpos).withBeg hmodifiable pos
          rw [ComponentEncoder.startSegment, hvec, hmodifiable, if_pos (by decide)] at hstart ⊢
          exact ⟨_, rfl, rfl, hstart⟩
      | false =>
          have hend : (ComponentEncoder.endSegment O .host e).ctx.pos = '.' :: pos :=
            (endSegment_movedTo O .host e).pos.trans hpos
          have hskip := skipSeparator_host (O := O) hend
          rw [hmodifiable, Bool.false_and, if_neg Bool.false_ne_true] at hskip
          rw [if_neg Bool.false_ne_true, hskip, ok_bind, resetSegmentStart, hvec, Bool.true_or,
            if_pos rfl]
          exact ⟨_, rfl, rfl, h.endSegment hO hmodifiable hsegregated hpos⟩
  | false =>
      have hmoved := h.passTo hO ['.'] ['.'] hpos fun _ => rfl
      rw [hsegregated] at hvec
      rw [if_neg Bool.false_ne_true, skipSeparator_host hpos, ok_bind, hsegregated, Bool.not_false,
        Bool.and_true, ComponentEncoder.endSegment, endSegmentOf, hvec, Bool.false_and,
        if_neg Bool.false_ne_true, resetSegmentStart, hvec, Bool.false_or]
      rw [Uri.passTo] at hmoved
      cases hmodifiable : O.isModifiable with
      | true =>
          rw [hmodifiable, if_pos rfl] at hmoved
          rw [if_pos rfl, if_pos rfl]
          exact ⟨_, rfl, rfl, hmoved.withBeg hmodifiable pos⟩
      | false =>
          rw [hmodifiable, if_neg Bool.false_ne_true] at hmoved
          rw [if_neg Bool.false_ne_true, if_neg Bool.false_ne_true]
          exact ⟨_, rfl, rfl, hmoved⟩

end Stored

/-! ## The rounds -/

/-- The loop of `parse_authority_pieces` has read `read` of a host. -/
structure HostSoFar (O : Output σ) (start : Ctx σ) (read text : List Char)
    (s : AuthorityState σ) : Prop where
  coder : HasRead O start read text s.coder
  hostBegin : s.hostBegin = start.pos
  noCredentials : s.mustContainCredentials = false

/-- The loop comes from `s` to a round with a search that ends behind `read`. -/
def ComesTo (o : Options) (O : Output σ) (authorityBegin : List Char) (start : Ctx σ)
    (s : AuthorityState σ) (read text : List Char) : Prop :=
  ∃ t s', LeadsTo (authorityStep o O true authorityBegin) .diverges AuthorityState.left s t ∧
    authorityStep o O true authorityBegin t =
      (deref s'.coder.ctx.pos >>= authoritySwitch o O true authorityBegin s') ∧
    HostSoFar O start read text s'

section Rounds

variable {o : Options} {O : Output σ} {authorityBegin : List Char} {start : Ctx σ}
  {read text host rest pos chars : List Char} {s s' : AuthorityState σ}
  {e : ComponentEncoder σ} {c x : Char}

theorem HostSoFar.setCoder (h : HostSoFar O start read text s) {read' text' : List Char}
    (he : HasRead O start read' text' e) : HostSoFar O start read' text' (s.setCoder e) :=
  ⟨he, h.hostBegin, h.noCredentials⟩

theorem ComesTo.of_leadsTo (h : ComesTo o O authorityBegin start s' read text)
    (hleads : LeadsTo (authorityStep o O true authorityBegin) .diverges AuthorityState.left s s') :
    ComesTo o O authorityBegin start s read text := by
  obtain ⟨t, s'', hleads', hround, hs''⟩ := h
  exact ⟨t, s'', hleads.trans hleads', hround, hs''⟩

theorem leadsTo_of_search
    (h : decodeOrTolower O .host (authorityInteresting O true) s.coder =
      decodeOrTolower O .host (authorityInteresting O true) e)
    (hshorter : e.ctx.pos.length < s.left) :
    LeadsTo (authorityStep o O true authorityBegin) .diverges AuthorityState.left s
      (s.setCoder e) := by
  refine leadsTo_of_eq ?_ hshorter
  rw [authorityStep_eq, authorityStep_eq]
  show decodeOrTolower O .host (authorityInteresting O true) s.coder >>= _ =
    decodeOrTolower O .host (authorityInteresting O true) e >>= _
  rw [h]
  rfl

theorem authorityStep_of_stop
    (h : decodeOrTolower O .host (authorityInteresting O true) s.coder = .ok (false, e)) :
    authorityStep o O true authorityBegin s =
      (deref e.ctx.pos >>= authoritySwitch o O true authorityBegin (s.setCoder e)) := by
  rw [authorityStep_eq]
  show decodeOrTolower O .host (authorityInteresting O true) s.coder >>= _ = _
  rw [h, ok_bind]
  rfl

theorem passTo_pos (O : Output σ) (chars pos : List Char) (e : ComponentEncoder σ) :
    (passTo O chars pos e).ctx.pos = pos := by
  rw [passTo]
  split <;> rfl

/-- The search stops behind `piece`, and nothing is written for it. -/
theorem HostSoFar.comesTo (hO : StoresHost O) (h : HostSoFar O start read text s)
    (piece : List Char) (hpos : s.coder.ctx.pos = piece ++ pos)
    (hpiece : O.isModifiable = false → piece = [])
    (hsearch : decodeOrTolower O .host (authorityInteresting O true) s.coder =
      .ok (false, passTo O [] pos s.coder)) :
    ComesTo o O authorityBegin start s (read ++ piece) text := by
  have hmoved := h.coder.passTo hO piece [] hpos fun hmodifiable => (hpiece hmodifiable).symm
  rw [List.append_nil] at hmoved
  exact ⟨s, s.setCoder (passTo O [] pos s.coder), .refl s, authorityStep_of_stop hsearch,
    h.setCoder hmoved⟩

theorem HostSoFar.passes (authorityBegin : List Char) (hO : StoresHost O)
    (h : HostSoFar O start read text s) (piece chars : List Char)
    (hpos : s.coder.ctx.pos = piece ++ pos) (hne : piece ≠ [])
    (hchars : O.isModifiable = false → chars = piece)
    (hsearch : decodeOrTolower O .host (authorityInteresting O true) s.coder =
      decodeOrTolower O .host (authorityInteresting O true) (passTo O chars pos s.coder)) :
    ∃ s', LeadsTo (authorityStep o O true authorityBegin) .diverges AuthorityState.left s s' ∧
      s'.coder.ctx.pos = pos ∧ HostSoFar O start (read ++ piece) (text ++ chars) s' := by
  refine ⟨_, leadsTo_of_search hsearch ?_, passTo_pos O chars pos s.coder,
    h.setCoder (h.coder.passTo hO piece chars hpos hchars)⟩
  rw [passTo_pos, AuthorityState.left, hpos, List.length_append]
  exact Nat.lt_add_of_pos_left (List.length_pos_iff.mpr hne)

theorem HostSoFar.goesOn (hO : StoresHost O) (h : HostSoFar O start read text s)
    (hpos : s.coder.ctx.pos = c :: pos) (hc : Stops O c) (hpercent : c ≠ '%')
    (hswitch : ∀ s₁ : AuthorityState σ, HostSoFar O start read text s₁ →
      s₁.coder.ctx.pos = c :: pos → ∃ e', authoritySwitch o O true authorityBegin s₁ c =
        .ok (.next (s₁.setCoder e')) ∧ e'.ctx.pos = pos ∧
          HasRead O start (read ++ [c]) (text ++ chars) e') :
    ∃ s', LeadsTo (authorityStep o O true authorityBegin) .diverges AuthorityState.left s s' ∧
      s'.coder.ctx.pos = pos ∧ HostSoFar O start (read ++ [c]) (text ++ chars) s' := by
  have hsearch := search_stop hpos hc fun _ => hpercent
  have hmoved := h.coder.passTo hO [] [] hpos fun _ => rfl
  rw [List.append_nil, List.append_nil] at hmoved
  obtain ⟨e', hnext, hpos', he'⟩ :=
    hswitch _ (h.setCoder hmoved) (passTo_pos O [] (c :: pos) s.coder)
  refine ⟨s.setCoder e', leadsTo_of_next ?_ ?_, hpos', h.setCoder he'⟩
  · rw [authorityStep_of_stop hsearch, passTo_pos, deref_cons, ok_bind]
    exact hnext
  · show e'.ctx.pos.length < s.coder.ctx.pos.length
    rw [hpos', hpos]
    exact Nat.lt_succ_self _

theorem authoritySwitch_dot (hO : StoresHost O) (h : HostSoFar O start read text s)
    (hpos : s.coder.ctx.pos = '.' :: pos) :
    ∃ e', authoritySwitch o O true authorityBegin s '.' = .ok (.next (s.setCoder e')) ∧
      e'.ctx.pos = pos ∧ HasRead O start (read ++ ['.']) (text ++ ['.']) e' := by
  obtain ⟨e', hnext, he'⟩ := h.coder.nextSegment hO hpos
  refine ⟨e', ?_, he'⟩
  rw [authoritySwitch, hnext]
  rfl

theorem authoritySwitch_tab (hO : StoresHost O) (h : HostSoFar O start read text s)
    (hpos : s.coder.ctx.pos = c :: pos) (hc : isTabOrNewline c = true)
    (hignore : o.ignoreTabsOrNewlines = true) :
    ∃ e', authoritySwitch o O true authorityBegin s c = .ok (.next (s.setCoder e')) ∧
      e'.ctx.pos = pos ∧
      HasRead O start (read ++ [c]) (text ++ if O.isModifiable then [] else [c]) e' := by
  obtain ⟨e', hnext, he'⟩ := h.coder.ignoreCharacter hO hpos .invalidCharacter
  have hswitch : authoritySwitch o O true authorityBegin s c =
      (if o.ignoreTabsOrNewlines then do
        let e ← (s.coder.setWarning .invalidCharacter).ignoreCharacter
        pure (.next (s.setCoder e))
      else pure (.done (.returned (s.coder.ctx.setError (invalidCodePoint true))))) := by
    have hmem := mem_of_isTabOrNewline hc
    simp only [List.mem_cons, List.not_mem_nil, or_false] at hmem
    rcases hmem with rfl | rfl | rfl <;> rfl
  refine ⟨e', ?_, he'⟩
  rw [hswitch, if_pos hignore, hnext]
  rfl

theorem HostSoFar.passesOver (authorityBegin : List Char) (hO : StoresHost O)
    (h : HostSoFar O start read text s) (hpos : s.coder.ctx.pos = c :: pos)
    (hc : (authorityInteresting O true).contains c = true)
    (hpassed : passedOver o O c = some chars) :
    ∃ s', LeadsTo (authorityStep o O true authorityBegin) .diverges AuthorityState.left s s' ∧
      s'.coder.ctx.pos = pos ∧ HostSoFar O start (read ++ [c]) (text ++ chars) s' := by
  rw [passedOver] at hpassed
  split at hpassed
  · rename_i hupper
    cases hpassed
    obtain ⟨hmodifiable, hletter⟩ := (Bool.and_eq_true _ _).mp hupper
    refine h.passes authorityBegin hO [c] _ hpos (List.cons_ne_nil _ _) (fun hfalse => ?_)
      (search_upper hO.appends hmodifiable hpos hletter)
    exact absurd (hmodifiable.symm.trans hfalse) (by decide)
  · rename_i hupper
    have hstops : Stops O c := ⟨hc, fun hmodifiable => Bool.eq_false_iff.mpr fun hletter =>
      hupper ((Bool.and_eq_true _ _).mpr ⟨hmodifiable, hletter⟩)⟩
    split at hpassed
    · rename_i hdot
      subst hdot
      cases hpassed
      exact h.goesOn hO hpos hstops (by decide) fun s₁ hs₁ hpos₁ =>
        authoritySwitch_dot hO hs₁ hpos₁
    · split at hpassed
      · rename_i htab
        cases hpassed
        obtain ⟨htab, hignore⟩ := (Bool.and_eq_true _ _).mp htab
        have hpercent : c ≠ '%' := by
          rintro rfl
          exact absurd htab (by decide)
        exact h.goesOn hO hpos hstops hpercent fun s₁ hs₁ hpos₁ =>
          authoritySwitch_tab hO hs₁ hpos₁ htab hignore
      · cases hpassed

theorem stops_of_not_passedOver (hc : (authorityInteresting O true).contains c = true)
    (hpassed : passedOver o O c = none) : Stops O c := by
  refine ⟨hc, fun hmodifiable => Bool.eq_false_iff.mpr fun hletter => ?_⟩
  rw [passedOver, hmodifiable, hletter, if_pos (by decide)] at hpassed
  cases hpassed

theorem interesting_of_passedOver (hmodifiable : O.isModifiable = true)
    (hpassed : passedOver o O c = some chars) :
    (authorityInteresting O true).contains c = true ∧ c ≠ '%' := by
  rw [interesting_of_modifiable hmodifiable]
  rw [passedOver] at hpassed
  split at hpassed
  · rename_i hupper
    have hletter := ((Bool.and_eq_true _ _).mp hupper).2
    refine ⟨by rw [contains_of_upperAlpha hletter, Bool.or_true], ?_⟩
    rintro rfl
    exact absurd hletter (by decide)
  · split at hpassed
    · rename_i hdot
      subst hdot
      exact ⟨by decide, by decide⟩
    · split at hpassed
      · rename_i htab
        have hmem := mem_of_isTabOrNewline ((Bool.and_eq_true _ _).mp htab).1
        have hall : ∀ c ∈ ['\t', '\r', '\n'],
            (forbiddenDomains.contains c || upperAlpha.contains c) = true ∧ c ≠ '%' := by decide
        exact hall c hmem
      · cases hpassed

/-- The loop comes to where `r` says that the host is read to. -/
def ReadsTo (o : Options) (O : Output σ) (authorityBegin : List Char) (start : Ctx σ)
    (s : AuthorityState σ) (read text host : List Char) (r : List Char × HostEnd) : Prop :=
  ∃ run, host = run ++ r.2.behind ∧
    ComesTo o O authorityBegin start s (read ++ run) (text ++ r.1)

theorem ReadsTo.push {piece : List Char} {r : List Char × HostEnd}
    (hleads : LeadsTo (authorityStep o O true authorityBegin) .diverges AuthorityState.left s s')
    (h : ReadsTo o O authorityBegin start s' (read ++ piece) (text ++ chars) host r) :
    ReadsTo o O authorityBegin start s read text (piece ++ host) (pushText chars r) := by
  obtain ⟨run, rfl, hcomes⟩ := h
  refine ⟨piece ++ run, (List.append_assoc ..).symm, ?_⟩
  rw [List.append_assoc, List.append_assoc] at hcomes
  exact hcomes.of_leadsTo hleads

theorem ReadsTo.of_comesTo {piece : List Char} {ending : HostEnd}
    (h : ComesTo o O authorityBegin start s (read ++ piece) text) (hhost : host = piece ++
      ending.behind) : ReadsTo o O authorityBegin start s read text host ([], ending) :=
  ⟨piece, hhost, by rwa [List.append_nil]⟩

theorem HostSoFar.stopsBehindEscape {c1 c2 : Char} (hO : StoresHost O)
    (hmodifiable : O.isModifiable = true) (h : HostSoFar O start read text s)
    (hpos : s.coder.ctx.pos = '%' :: c1 :: c2 :: pos) (hd : decodedChar c1 c2 = none)
    (hc : upperAlpha c2 = false) :
    ComesTo o O authorityBegin start s (read ++ ['%', c1]) text := by
  have hne : s.coder.ctx.pos ≠ [] := by
    rw [hpos]
    exact List.cons_ne_nil _ _
  have hdecode : decodeUriComponent (authorityInteresting O true) s.coder.ctx.pos =
      ([], c2 :: pos, false) := by
    rw [hpos]
    exact decodeUriComponent_broken hd pos
  exact h.comesTo hO ['%', c1] hpos
    (fun hfalse => absurd (hmodifiable.symm.trans hfalse) (by decide))
    (search_stop_decoding hmodifiable hne hdecode hc)

theorem decodedChar_of_none {c1 c2 : Char} (hc : hexDigitSafe c2 = none) :
    decodedChar c1 c2 = none := by
  rw [decodedChar, hc]

/-- The host is read to its end, whatever is behind it, or to the character that ends the loop.
The text behind the host only matters where a `%` is its last character. -/
theorem HostSoFar.reads (hO : StoresHost O) (hx : EndsHost O x) (h : HostSoFar O start read text s)
    (hpos : s.coder.ctx.pos = host ++ x :: rest)
    (hlone : (readHost o O host).2 = .lonePercent → rest = []) :
    ReadsTo o O authorityBegin start s read text host (readHost o O host) := by
  have hpiece {c : Char} (hpercent : O.isModifiable = true ∧ c = '%') (piece : List Char) :
      O.isModifiable = false → piece = [] :=
    fun hfalse => absurd (hpercent.1.symm.trans hfalse) (by decide)
  fun_induction readHost o O host generalizing s read text with
  | case1 =>
      exact .of_comesTo (h.comesTo hO [] hpos (fun _ => rfl)
        (search_stop hpos hx.stops fun _ => hx.percent)) rfl
  | case2 c hpercent =>
      obtain ⟨hmodifiable, rfl⟩ := hpercent
      obtain rfl := hlone rfl
      have hdecode : decodeUriComponent (authorityInteresting O true) ['%', x] =
          ([], [x], false) := rfl
      rw [← show s.coder.ctx.pos = ['%', x] from hpos] at hdecode
      have hne : s.coder.ctx.pos ≠ [] := by
        rw [hpos]
        exact List.cons_ne_nil _ _
      exact .of_comesTo (h.comesTo hO ['%'] hpos (hpiece ⟨hmodifiable, rfl⟩ _)
        (search_stop_decoding hmodifiable hne hdecode (hx.stops.2 hmodifiable))) rfl
  | case3 c hpercent c1 =>
      obtain ⟨hmodifiable, rfl⟩ := hpercent
      exact .of_comesTo (h.stopsBehindEscape hO hmodifiable hpos (decodedChar_of_none hx.digit)
        (hx.stops.2 hmodifiable)) rfl
  | case4 c hpercent c1 c2 host d hd ih =>
      obtain ⟨hmodifiable, rfl⟩ := hpercent
      obtain ⟨s', hleads, hpos', hs'⟩ := h.passes authorityBegin hO ['%', c1, c2] [d] hpos
        (List.cons_ne_nil _ _)
        (fun hfalse => absurd (hmodifiable.symm.trans hfalse) (by decide))
        (search_escape hO.appends hmodifiable hpos hd)
      exact .push hleads (ih hs' hpos' hlone)
  | case5 c hpercent c1 c2 host hd chars hpassed ih =>
      obtain ⟨hmodifiable, rfl⟩ := hpercent
      obtain ⟨hc, hne⟩ := interesting_of_passedOver hmodifiable hpassed
      obtain ⟨s₁, hleads, hpos₁, hs₁⟩ := h.passes authorityBegin hO ['%', c1] [] hpos
        (List.cons_ne_nil _ _)
        (fun hfalse => absurd (hmodifiable.symm.trans hfalse) (by decide))
        (search_broken hO.appends hmodifiable hpos hd hc hne)
      obtain ⟨s₂, hleads', hpos₂, hs₂⟩ :=
        hs₁.passesOver authorityBegin hO hpos₁ hc hpassed
      rw [List.append_assoc, List.append_nil] at hs₂
      exact .push (hleads.trans hleads') (ih hs₂ hpos₂ hlone)
  | case6 c hpercent c1 c2 host hd hpassed =>
      obtain ⟨hmodifiable, rfl⟩ := hpercent
      have hc : upperAlpha c2 = false := Bool.eq_false_iff.mpr fun hletter => by
        rw [passedOver, hmodifiable, hletter, if_pos (by decide)] at hpassed
        cases hpassed
      exact .of_comesTo (h.stopsBehindEscape hO hmodifiable hpos hd hc) rfl
  | case7 c host hpercent hc chars hpassed ih =>
      obtain ⟨s', hleads, hpos', hs'⟩ := h.passesOver authorityBegin hO hpos hc hpassed
      exact .push hleads (ih hs' hpos' hlone)
  | case8 c host hpercent hc hpassed =>
      exact .of_comesTo (h.comesTo hO [] hpos (fun _ => rfl)
        (search_stop hpos (stops_of_not_passedOver hc hpassed) fun hmodifiable heq =>
          hpercent ⟨hmodifiable, heq⟩)) rfl
  | case9 c host hpercent hc ih =>
      obtain ⟨s', hleads, hpos', hs'⟩ := h.passes authorityBegin hO [c] [c] hpos
        (List.cons_ne_nil _ _) (fun _ => rfl)
        (search_plain hO.appends hpos (Bool.eq_false_iff.mpr hc))
      exact .push hleads (ih hs' hpos' hlone)

end Rounds

end Webpp.Uri
