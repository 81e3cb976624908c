import Webpp.Uri.PresetPaths
import Webpp.Uri.StrictDots

/-!
# Dot segments under two presets

A segment is taken back by its length under the strict preset, and up to the last slash under
the standard one. In a context of strings this is the same for one dot. For two dots it is
not: the segment before them is removed first, and the length of the dots is taken off
what is left.
-/

namespace Webpp.Uri

open ComponentEncoder Ctx Loop Webpp.Text

variable {σ : Type} {O : Output σ} {text : List Char} {rest : List Char}

theorem countDots_alike (hun : Untabbed text) (prev : Char) (dots : UInt8) :
    countDots standardUriParsingOptions text prev dots =
      countDots strictUriParsingOptions text prev dots := by
  induction text generalizing prev dots with
  | nil => rfl
  | cons c text ih =>
      have htab : ∀ o : Options, ¬(isTabOrNewline c = true ∧ o.ignoreTabsOrNewlines = true) := by
        intro o h
        rw [hun.head.1] at h
        exact Bool.false_ne_true h.1
      rw [countDots, countDots]
      simp only [ih hun.tail, if_neg (htab _)]

/-! ## Outputs that are no texts of a path -/

/-- The parts of the text that the encoder reads. -/
def ReadsUntabbed (e : ComponentEncoder σ) : Prop := Untabbed e.beg ∧ Untabbed e.ctx.pos

theorem ReadsUntabbed.further {e e' : ComponentEncoder σ} (h : ReadsUntabbed e)
    (h' : Further e e') : ReadsUntabbed e' := by
  refine ⟨?_, h.2.of_suffix h'.ctx.pos⟩
  rcases h'.beg with hbeg | hbeg
  · rw [hbeg]
    exact h.1
  · exact h.2.of_suffix hbeg

theorem Untabbed.slice {start : List Char} (h : Untabbed start) (stop : List Char) :
    Untabbed (Uri.slice start stop) :=
  fun c hc => h c (List.mem_of_mem_take hc)

theorem clearSegment_alike (hO : O.isModifiable = false ∨ O.isSegregated = true)
    (e : ComponentEncoder σ) : clearSegment standardUriParsingOptions O e =
      clearSegment strictUriParsingOptions O e := by
  have hno : ¬(O.isModifiable && !O.isSegregated) = true := by
    rcases hO with h | h
    · simp [h]
    · simp [h]
  rw [clearSegment, clearSegment]
  simp only [if_neg hno]

theorem handleDotsInPaths_alike (hO : O.isModifiable = false ∨ O.isSegregated = true)
    {e : ComponentEncoder σ} (he : ReadsUntabbed e) :
    handleDotsInPaths standardUriParsingOptions O e =
      handleDotsInPaths strictUriParsingOptions O e := by
  have hcount := countDots_alike (he.1.slice e.ctx.pos) '\x00' 0
  have hclear := clearSegment_alike hO
  rw [handleDotsInPaths, handleDotsInPaths, hcount]
  simp only [hclear]
  rfl

theorem dotsAlike_of_views (hO : O.isModifiable = false ∨ O.isSegregated = true) :
    DotsAlike O ReadsUntabbed where
  agree _ hr _ := handleDotsInPaths_alike hO hr
  stop e he := he.further (encodeOrValidate_further O .path e _ _)
  slash r rest e hr _ hslash := by
    have hfurther := pathSlash_further standardUriParsingOptions O r
    rw [hslash] at hfurther
    exact hr.further hfurther
  escape r c d rest hr hpos _ _ := by
    refine hr.further ((store_further O .path r _).setPos ?_)
    rw [(store_movedTo O .path r _).pos, hpos]
    exact List.suffix_append ['%', c, d] rest

/-! ## Texts -/

/-- The characters of dot segments. -/
def dotChars : List Char := ['%', '2', 'e', 'E', '.']

theorem mem_dotChars (hun : Untabbed text) {prev : Char} {dots k : UInt8}
    (h : countDots standardUriParsingOptions text prev dots = some k) :
    ∀ c ∈ text, c ∈ dotChars := by
  induction text generalizing prev dots with
  | nil => simp
  | cons c text ih =>
      have htab : ¬(isTabOrNewline c = true ∧
          standardUriParsingOptions.ignoreTabsOrNewlines = true) := by
        intro h
        rw [hun.head.1] at h
        exact Bool.false_ne_true h.1
      have hcons (hc : c ∈ dotChars) {prev : Char} {dots : UInt8}
          (h : countDots standardUriParsingOptions text prev dots = some k) :
          ∀ d ∈ c :: text, d ∈ dotChars := by
        intro d hd
        rcases List.mem_cons.mp hd with rfl | hd
        · exact hc
        · exact ih hun.tail h d hd
      rw [countDots] at h
      split at h
      · rename_i hc
        split at h
        · cases h
        · exact hcons (by rw [hc]; decide) h
      · split at h
        · rename_i hc
          split at h
          · cases h
          · exact hcons (by rw [hc]; decide) h
        · split at h
          · rename_i hc
            split at h
            · cases h
            · refine hcons ?_ h
              rcases hc with rfl | rfl <;> decide
          · split at h
            · rename_i hc
              exact hcons (by rw [hc]; decide) h
            · cases h

theorem flatMap_encodeUriChar {s : AsciiBitmap}
    (h : ∀ c ∈ text, s.contains c = false) : text.flatMap (encodeUriChar s) = text := by
  induction text with
  | nil => rfl
  | cons c text ih =>
      rw [List.flatMap_cons, ih fun d hd => h d (List.mem_cons_of_mem _ hd), encodeUriChar,
        h c List.mem_cons_self]
      rfl

theorem encodeUriComponent_run (s interesting : AsciiBitmap) (pos : List Char) :
    ∃ run, pos = run ++ (encodeUriComponent s interesting pos).2 ∧
      (encodeUriComponent s interesting pos).1 = run.flatMap (encodeUriChar s) := by
  induction pos with
  | nil => exact ⟨[], rfl, rfl⟩
  | cons c pos ih =>
      rw [encodeUriComponent]
      split
      · exact ⟨[], rfl, rfl⟩
      · obtain ⟨run, hpos, hrun⟩ := ih
        refine ⟨c :: run, ?_, ?_⟩
        · rw [List.cons_append, ← hpos]
        · show encodeUriChar s c ++ (encodeUriComponent s interesting pos).1 = _
          rw [hrun, List.flatMap_cons]

/-- A path that is not in the middle of a segment. -/
def Front (pos : List Char) : Prop :=
  ∀ c, pos.head? = some c → c = '/' ∨ c = '\\' ∨ c = '?' ∨ c = '#'

/-- The encoder has read `segment` behind `before`: nothing yet, or what the output ends with
behind a slash. -/
structure TextAt (p before segment : List Char) (e : ComponentEncoder Strings) : Prop where
  text : p = before ++ (segment ++ e.ctx.pos)
  beg : e.beg = segment ++ e.ctx.pos
  out : segment = [] ∧ Front e.ctx.pos ∨ before.getLast? = some '/' ∧
    ∃ path, e.ctx.out .path = path ++ '/' :: segment.flatMap (encodeUriChar pathEncodeSet)

/-- No segment behind a slash is read as two dots. -/
def NoDoubleDots (p : List Char) : Prop :=
  ∀ before segment rest, p = before ++ (segment ++ rest) → before.getLast? = some '/' →
    rest = [] ∨ rest.head? = some '/' →
      countDots standardUriParsingOptions segment '\x00' 0 ≠ some 2

section Texts

variable {p before segment : List Char} {e r : ComponentEncoder Strings}

theorem TextAt.slice (h : TextAt p before segment e) : slice e.beg e.ctx.pos = segment := by
  rw [h.beg, slice_append]

theorem TextAt.untabbed (h : TextAt p before segment e) (hun : Untabbed p) : Untabbed segment :=
  fun c hc => hun c (by rw [h.text]; simp [hc])

theorem TextAt.out_eq (h : TextAt p before segment e) (hun : Untabbed p)
    (hcount : countDots standardUriParsingOptions segment '\x00' 0 = some 1) :
    segment ≠ [] ∧ '/' ∉ segment ∧ ∃ path, e.ctx.out .path = path ++ '/' :: segment := by
  have hne : segment ≠ [] := ne_nil_of_countDots (by decide) hcount
  have hdots := mem_dotChars (h.untabbed hun) hcount
  have hencode : segment.flatMap (encodeUriChar pathEncodeSet) = segment := by
    refine flatMap_encodeUriChar fun c hc => ?_
    have hall : ∀ c ∈ dotChars, pathEncodeSet.contains c = false := by decide
    exact hall c (hdots c hc)
  refine ⟨hne, fun hmem => absurd (hdots _ hmem) (by decide), ?_⟩
  obtain ⟨-, path, hpath⟩ := h.out.resolve_left fun hstart => hne hstart.1
  rw [hencode] at hpath
  exact ⟨path, hpath⟩

theorem appendTo_path (chars : List Char) (e : ComponentEncoder Strings) :
    (appendTo stringOutput .path chars e).ctx.out .path = e.ctx.out .path ++ chars := by
  show Function.update e.ctx.out .path (e.ctx.out .path ++ chars) .path = _
  rw [Function.update_self]

/-- The segment of one dot is taken back. -/
def dropSegment (path : List Char) (e : ComponentEncoder Strings) : ComponentEncoder Strings :=
  (e.setOut (Function.update e.ctx.out .path (path ++ ['/']))).resetBegin

theorem dropSegment_path (path : List Char) (e : ComponentEncoder Strings) :
    (dropSegment path e).ctx.out .path = path ++ ['/'] := by
  show Function.update e.ctx.out .path (path ++ ['/']) .path = _
  rw [Function.update_self]

theorem clearSegment_standard {path : List Char} (hne : segment ≠ []) (hslash : '/' ∉ segment)
    (hpath : e.ctx.out .path = path ++ '/' :: segment) :
    clearSegment standardUriParsingOptions stringOutput e = .ok (dropSegment path e) := by
  rw [clearSegment_eq, hpath,
    popBackText_append path hne fun hmem => hslash (List.mem_of_mem_dropLast hmem)]
  rfl

theorem clearSegment_strict_out {path : List Char} (hbeg : e.beg = segment ++ e.ctx.pos)
    (hpath : e.ctx.out .path = path ++ '/' :: segment) :
    clearSegment strictUriParsingOptions stringOutput e = .ok (dropSegment path e) := by
  have hlength : e.beg.length - e.ctx.pos.length = segment.length := by
    rw [hbeg, List.length_append, Nat.add_sub_cancel]
  have hsplit : path ++ '/' :: segment = (path ++ ['/']) ++ segment := by simp
  rw [clearSegment_strict, hlength, hpath, hsplit, eraseLast_append]
  rfl

theorem handleDotsInPaths_of_one {o : Options} (ho : o.handleDotsInPaths = true)
    (h : countDots o (Uri.slice e.beg e.ctx.pos) '\x00' 0 = some 1) :
    Uri.handleDotsInPaths o stringOutput e =
      (clearSegment o stringOutput e >>= fun e => pure (true, e)) := by
  rw [Uri.handleDotsInPaths, if_pos ho, h]
  rfl

theorem handleDotsInPaths_of_other {o : Options} (ho : o.handleDotsInPaths = true)
    (hone : countDots o (Uri.slice e.beg e.ctx.pos) '\x00' 0 ≠ some 1)
    (htwo : countDots o (Uri.slice e.beg e.ctx.pos) '\x00' 0 ≠ some 2) :
    Uri.handleDotsInPaths o stringOutput e = .ok (false, e) := by
  rw [Uri.handleDotsInPaths, if_pos ho]
  split
  · exact absurd ‹_› hone
  · exact absurd ‹_› htwo
  · rfl

/-- What a segment that is not two dots is made of. -/
theorem TextAt.handleDotsInPaths (h : TextAt p before segment e) (hun : Untabbed p)
    (hno : countDots standardUriParsingOptions segment '\x00' 0 ≠ some 2) :
    Uri.handleDotsInPaths standardUriParsingOptions stringOutput e =
        Uri.handleDotsInPaths strictUriParsingOptions stringOutput e ∧
      (Uri.handleDotsInPaths standardUriParsingOptions stringOutput e = .ok (false, e) ∨
        ∃ path, Uri.handleDotsInPaths standardUriParsingOptions stringOutput e =
          .ok (true, dropSegment path e)) := by
  have halike := countDots_alike (h.untabbed hun) '\x00' 0
  by_cases hone : countDots standardUriParsingOptions segment '\x00' 0 = some 1
  · obtain ⟨hne, hslash, path, hpath⟩ := h.out_eq hun hone
    have hstandard : Uri.handleDotsInPaths standardUriParsingOptions stringOutput e =
        .ok (true, dropSegment path e) := by
      rw [handleDotsInPaths_of_one rfl (by rw [h.slice, hone]),
        clearSegment_standard hne hslash hpath]
      rfl
    have hstrict : Uri.handleDotsInPaths strictUriParsingOptions stringOutput e =
        .ok (true, dropSegment path e) := by
      rw [handleDotsInPaths_of_one rfl (by rw [h.slice, ← halike, hone]),
        clearSegment_strict_out h.beg hpath]
      rfl
    exact ⟨hstandard.trans hstrict.symm, .inr ⟨path, hstandard⟩⟩
  · have hstandard : Uri.handleDotsInPaths standardUriParsingOptions stringOutput e =
        .ok (false, e) := by
      apply handleDotsInPaths_of_other rfl
      · rwa [h.slice]
      · rwa [h.slice]
    have hstrict : Uri.handleDotsInPaths strictUriParsingOptions stringOutput e =
        .ok (false, e) := by
      apply handleDotsInPaths_of_other rfl
      · rwa [h.slice, ← halike]
      · rwa [h.slice, ← halike]
    exact ⟨hstandard.trans hstrict.symm, .inl hstandard⟩

theorem TextAt.ne_two (h : TextAt p before segment e) (hno : NoDoubleDots p)
    (hpos : e.ctx.pos = [] ∨ e.ctx.pos.head? = some '/') :
    countDots standardUriParsingOptions segment '\x00' 0 ≠ some 2 := by
  rcases h.out with ⟨rfl, -⟩ | ⟨hlast, -⟩
  · decide
  · exact hno before segment e.ctx.pos h.text hlast hpos

theorem pathInteresting_of_front {c : Char} (hc : c = '/' ∨ c = '\\' ∨ c = '?' ∨ c = '#') :
    (pathInteresting stringOutput).contains c = true := by
  rcases hc with rfl | rfl | rfl | rfl <;> decide

theorem TextAt.stop (h : TextAt p before segment e) :
    ∃ run, TextAt p before (segment ++ run) (pathStop stringOutput e).2 := by
  obtain ⟨run, hrun, hencoded⟩ :=
    encodeUriComponent_run pathEncodeSet (pathInteresting stringOutput) e.ctx.pos
  refine ⟨run, ?_⟩
  have hpos : (pathStop stringOutput e).2.ctx.pos =
      (encodeUriComponent pathEncodeSet (pathInteresting stringOutput) e.ctx.pos).2 := rfl
  have hout : (pathStop stringOutput e).2.ctx.out .path =
      e.ctx.out .path ++ run.flatMap (encodeUriChar pathEncodeSet) := by
    rw [← hencoded]
    exact appendTo_path _ e
  rw [← hpos] at hrun
  refine ⟨?_, ?_, ?_⟩
  · rw [List.append_assoc, ← hrun]
    exact h.text
  · rw [List.append_assoc, ← hrun]
    exact h.beg
  · rcases h.out with ⟨rfl, hfront⟩ | ⟨hlast, path, hpath⟩
    · -- nothing is passed over at the begin of the path
      cases hcases : e.ctx.pos with
      | nil =>
          rw [hcases, List.nil_eq_append_iff] at hrun
          rw [hrun.1, hrun.2]
          exact .inl ⟨rfl, by simp [Front]⟩
      | cons c pos =>
          have hstop : (pathStop stringOutput e).2.ctx.pos = e.ctx.pos := by
            have hc := pathInteresting_of_front (hfront c (by rw [hcases]; rfl))
            rw [hpos, hcases, encodeUriComponent, if_pos hc]
          rw [hstop] at hrun ⊢
          rw [List.self_eq_append_left.mp hrun]
          exact .inl ⟨rfl, hfront⟩
    · refine .inr ⟨hlast, path, ?_⟩
      rw [hout, hpath, List.flatMap_append]
      simp

theorem TextAt.escape {c d : Char} (h : TextAt p before segment e)
    (hpos : e.ctx.pos = '%' :: c :: d :: rest) (hc : isHexDigit c = true)
    (hd : isHexDigit d = true) :
    TextAt p before (segment ++ ['%', c, d])
      ((store stringOutput .path ['%', c, d] e).setPos rest) := by
  have hdigit : ∀ c ∈ hexDigitChars, pathEncodeSet.contains c = false := by decide
  have hencode : ['%', c, d].flatMap (encodeUriChar pathEncodeSet) = ['%', c, d] := by
    refine flatMap_encodeUriChar fun x hx => ?_
    rcases List.mem_cons.mp hx with rfl | hx
    · decide
    · rcases List.mem_cons.mp hx with rfl | hx
      · exact hdigit _ (mem_hexDigitChars hc)
      · rw [List.mem_singleton.mp hx]
        exact hdigit _ (mem_hexDigitChars hd)
  have hlast := h.out.resolve_left fun hstart => by
    have hfront := hstart.2 '%' (by rw [hpos]; rfl)
    exact absurd hfront (by decide)
  obtain ⟨hlast, path, hpath⟩ := hlast
  refine ⟨?_, ?_, .inr ⟨hlast, path, ?_⟩⟩
  · rw [h.text, hpos]
    simp
  · show e.beg = _
    rw [h.beg, hpos]
    simp
  · have hstore : ((store stringOutput .path ['%', c, d] e).setPos rest).ctx.out .path =
        e.ctx.out .path ++ ['%', c, d] := appendTo_path _ e
    rw [hstore, hpath, List.flatMap_append, hencode]
    simp

theorem nextSegmentOf_slash (hpos : e.ctx.pos = '/' :: rest) :
    nextSegmentOf stringOutput .path '/' e =
      .ok ((appendTo stringOutput .path ['/'] e).setPos rest).resetBegin := by
  have hadvance : advance (appendTo stringOutput .path ['/'] e).ctx.pos 1 = .ok rest := by
    rw [appendTo, setOut_pos, hpos]
    exact advance_one_cons ..
  rw [nextSegmentOf, if_pos (by decide), ignoreCharacter, hadvance]
  rfl

theorem TextAt.slash (h : TextAt p before segment e) (hun : Untabbed p)
    (hno : countDots standardUriParsingOptions segment '\x00' 0 ≠ some 2)
    (hpos : e.ctx.pos = '/' :: rest)
    (hslash : pathSlash standardUriParsingOptions stringOutput e = .ok (.next r)) :
    TextAt p (before ++ segment ++ ['/']) [] r := by
  have htext : p = before ++ segment ++ ['/'] ++ ([] ++ rest) := by
    rw [h.text, hpos]
    simp
  have hlast : (before ++ segment ++ ['/']).getLast? = some '/' := List.getLast?_concat
  rw [pathSlash] at hslash
  rcases (h.handleDotsInPaths hun hno).2 with hdots | ⟨path, hdots⟩
  · rw [hdots, ok_bind, if_neg Bool.false_ne_true, nextSegmentOf_slash hpos] at hslash
    cases hslash
    exact ⟨htext, rfl, .inr ⟨hlast, e.ctx.out .path, appendTo_path _ e⟩⟩
  · have hadvance : advance (dropSegment path e).ctx.pos 1 = .ok rest := by
      show advance e.ctx.pos 1 = .ok rest
      rw [hpos]
      exact advance_one_cons ..
    rw [hdots, ok_bind, if_pos rfl, ignoreCharacter, hadvance] at hslash
    cases hslash
    exact ⟨htext, rfl, .inr ⟨hlast, path, dropSegment_path path e⟩⟩

end Texts

/-- The dot segments of a path without two dots. -/
theorem dotsAlike_of_texts {p : List Char} (hun : Untabbed p) (hno : NoDoubleDots p) :
    DotsAlike stringOutput (fun e => ∃ before segment, TextAt p before segment e) where
  agree := by
    rintro r ⟨before, segment, h⟩ hpos
    exact (h.handleDotsInPaths hun (h.ne_two hno hpos)).1
  stop := by
    rintro e ⟨before, segment, h⟩
    obtain ⟨run, hrun⟩ := h.stop
    exact ⟨before, _, hrun⟩
  slash := by
    rintro r rest e ⟨before, segment, h⟩ hpos hslash
    exact ⟨_, _, h.slash hun (h.ne_two hno (.inr (by rw [hpos]; rfl))) hpos hslash⟩
  escape := by
    rintro r c d rest ⟨before, segment, h⟩ hpos hc hd
    exact ⟨_, _, h.escape hpos hc hd⟩

theorem textAt_ofCtx {ctx : Ctx Strings} (hfront : Front ctx.pos) :
    TextAt ctx.pos [] [] (startSegment stringOutput .path (ofCtx ctx)) :=
  ⟨rfl, rfl, .inl ⟨rfl, hfront⟩⟩

end Webpp.Uri
