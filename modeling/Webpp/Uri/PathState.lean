import Mathlib.Data.List.DropRight
import Webpp.Uri.Path

/-!
# The path state

`whatwgPath` is the result of the path state of the URL standard for a special URI that
is no file: the segments of a path, with dot segments resolved and the characters of the
path percent-encode set encoded. `parse_path` in a context of strings stores it as long
as no character of the path makes it stop too early or too late and no segment is taken
for a dot segment (`parsePath_storesPathState`).
-/

namespace Webpp.Uri

open ComponentEncoder Loop Webpp.Text

variable {e : ComponentEncoder Strings} {path : List (List Char)} {c : Char} {segment : List Char}
  {segment rest : List Char}

/-! ## The standard -/

def isSlash (c : Char) : Bool := c == '/' || c == '\\'

/-- A `?` or a `#` ends the path. -/
def isPathEnd (c : Char) : Bool := c == '?' || c == '#'

/-- The path percent-encode set: the controls, all above `~`, and ten characters. -/
def pathPercentEncodeSet (c : Char) : Bool :=
  c.toNat ≤ 0x1F || 0x7E < c.toNat ||
    [' ', '"', '#', '<', '>', '?', '\x60', '\x7b', '\x7d'].contains c

/-- A segment, percent-encoded. -/
def percentEncodeSegment (segment : List Char) : List Char :=
  segment.flatMap fun c => if pathPercentEncodeSet c then toPercentHex c else [c]

/-- The spellings of a dot. -/
def dotSpellings : List (List Char) := [".".toList, "%2e".toList, "%2E".toList]

def doubleDotSpellings : List (List Char) :=
  dotSpellings.flatMap fun dot => dotSpellings.map (dot ++ ·)

def isSingleDot (segment : List Char) : Bool := dotSpellings.contains segment

def isDoubleDot (segment : List Char) : Bool := doubleDotSpellings.contains segment

/-- The segments before the last one, which a slash ends. -/
def pushSegment (path : List (List Char)) (segment : List Char) : List (List Char) :=
  if isDoubleDot segment then path.dropLast
  else if isSingleDot segment then path
  else path ++ [percentEncodeSegment segment]

/-- The last segment; a dot segment leaves an empty one. -/
def pushLast (path : List (List Char)) (segment : List Char) : List (List Char) :=
  if isDoubleDot segment then path.dropLast ++ [[]]
  else if isSingleDot segment then path ++ [[]]
  else path ++ [percentEncodeSegment segment]

/-- The path state on the segments of a path. -/
def pathState (path : List (List Char)) : List (List Char) → List (List Char)
  | [] => path
  | [segment] => pushLast path segment
  | segment :: segments => pathState (pushSegment path segment) segments

/-- The text of a path: a slash before each segment. -/
def serializePath (path : List (List Char)) : List Char := path.flatMap ('/' :: ·)

/-- The segments of a path; a leading slash begins the first one. -/
def pathSegments (path : List Char) : List (List Char) :=
  match path with
  | c :: rest => if isSlash c then rest.splitOnP isSlash else path.splitOnP isSlash
  | [] => [[]]

/-- The path of the text behind the authority. -/
def pathText (p : List Char) : List Char := p.takeWhile fun c => !isPathEnd c

/-- The text behind it. -/
def pathRest (p : List Char) : List Char := p.dropWhile fun c => !isPathEnd c

/-- The path that the standard stores for the text `p` behind the authority. -/
def whatwgPath (p : List Char) : List Char :=
  serializePath (pathState [] (pathSegments (pathText p)))

/-! ## Taking segments back -/

theorem slashScan_append (t : List Char) {r : List Char} (h : '/' ∉ r) :
    slashScan (r ++ '/' :: t) = r.length := by
  induction r with
  | nil =>
      cases t with
      | nil => rfl
      | cons c t => rfl
  | cons c r ih =>
      have hc : c ≠ '/' := fun hc => h (hc ▸ List.mem_cons_self ..)
      have hne : ∃ d u, r ++ '/' :: t = d :: u := by
        cases r with
        | nil => exact ⟨_, _, rfl⟩
        | cons d r => exact ⟨_, _, rfl⟩
      obtain ⟨d, u, hdu⟩ := hne
      have hstep : slashScan (c :: d :: u) = slashScan (d :: u) + 1 := by
        rw [slashScan, if_neg hc]
        exact fun h => List.cons_ne_nil _ _ h
      rw [List.cons_append, hdu, hstep, ← hdu, ih fun hmem => h (List.mem_cons_of_mem _ hmem),
        List.length_cons]

theorem popBackText_append (Y : List Char) {s : List Char} (hs : s ≠ [])
    (h : '/' ∉ s.dropLast) : popBackText (Y ++ '/' :: s) = Y ++ ['/'] := by
  obtain ⟨l, r, rfl⟩ : ∃ l r, s = r ++ [l] :=
    ⟨s.getLast hs, s.dropLast, (List.dropLast_append_getLast hs).symm⟩
  rw [List.dropLast_concat] at h
  have hrev : (Y ++ '/' :: (r ++ [l])).reverse = l :: (r.reverse ++ '/' :: Y.reverse) := by
    simp
  have hscan : slashScan (r.reverse ++ '/' :: Y.reverse) = r.length := by
    rw [slashScan_append _ fun hmem => h (List.mem_reverse.mp hmem), List.length_reverse]
  have hne : ∃ d u, r.reverse ++ '/' :: Y.reverse = d :: u := by
    cases r.reverse with
    | nil => exact ⟨_, _, rfl⟩
    | cons d r => exact ⟨_, _, rfl⟩
  obtain ⟨d, u, hdu⟩ := hne
  have hpop : popBackText (Y ++ '/' :: (r ++ [l])) =
      (Y ++ '/' :: (r ++ [l])).take ((Y ++ '/' :: (r ++ [l])).length - (r.length + 1)) := by
    rw [popBackText, hrev, hdu]
    simp only
    rw [← hdu, hscan]
  have hlen : (Y ++ '/' :: (r ++ [l])).length - (r.length + 1) = (Y ++ ['/']).length := by
    simp
    omega
  have happ : Y ++ '/' :: (r ++ [l]) = (Y ++ ['/']) ++ (r ++ [l]) := by simp
  rw [hpop, hlen, happ, List.take_left]

theorem serializePath_append (path : List (List Char)) (segment : List Char) :
    serializePath (path ++ [segment]) = serializePath path ++ '/' :: segment := by
  simp [serializePath]

theorem popBackText_segment (path : List (List Char)) (hne : segment ≠ []) (h : '/' ∉ segment) :
    popBackText (serializePath path ++ '/' :: segment) = serializePath path ++ ['/'] :=
  popBackText_append _ hne fun hmem => h (List.mem_of_mem_dropLast hmem)

/-- A path without the segment in progress loses its last segment. -/
theorem popBackText_slash (path : List (List Char)) (h : ∀ segment ∈ path, '/' ∉ segment) :
    popBackText (serializePath path ++ ['/']) = serializePath path.dropLast ++ ['/'] := by
  cases path using List.reverseRecOn with
  | nil => rfl
  | append_singleton path segment =>
      have hseg := h segment (List.mem_append_right _ (List.mem_singleton_self _))
      rw [List.dropLast_concat, serializePath_append, List.append_assoc, List.cons_append]
      refine popBackText_append _ (by simp) ?_
      rw [List.dropLast_concat]
      exact hseg

/-! ## Plain paths -/

/-- No escape, with two digits or without, goes on behind the text. -/
def escapesClosed : List Char → Bool
  | [] => true
  | [c] => c != '%'
  | c :: d :: rest =>
      if c = '%' then
        if isHexDigit d then
          match rest with
          | [] => false
          | _ :: rest => escapesClosed rest
        else escapesClosed rest
      else escapesClosed (d :: rest)

theorem escapesClosed_of_not_digit {d : Char} (hd : isHexDigit d = false)
    (rest : List Char) : escapesClosed ('%' :: d :: rest) = escapesClosed rest := by
  rw [escapesClosed.eq_def]
  simp [hd]

theorem escapesClosed_of_ne (hc : c ≠ '%') (d : Char) (rest : List Char) :
    escapesClosed (c :: d :: rest) = escapesClosed (d :: rest) := by
  rw [escapesClosed.eq_def]
  simp [hc]

/-- Neither encoded nor a character at which `parse_path` stops. -/
def isPlainPathChar (c : Char) : Bool := decide (c.toNat < 0x80) && !pathEncodeSet.contains c

/-- What the parser takes for a dot segment is one. -/
def DotsAgree (segment : List Char) : Prop :=
  (countDots standardUriParsingOptions segment '\x00' 0 = some 1 → isSingleDot segment) ∧
    (countDots standardUriParsingOptions segment '\x00' 0 = some 2 → isDoubleDot segment)

/-- The texts whose path is read as the standard does. -/
structure PlainPath (p : List Char) : Prop where
  slash : ∀ c ∈ p.head?, isSlash c
  plain : ∀ c ∈ pathText p, isPlainPathChar c
  dots : ∀ segment ∈ pathSegments (pathText p), DotsAgree segment
  /-- At the end of the input an escape may break off. -/
  closed : ∀ segment ∈ (if pathText p = p then (pathSegments (pathText p)).dropLast
    else pathSegments (pathText p)), escapesClosed segment

instance (segment : List Char) : Decidable (DotsAgree segment) :=
  inferInstanceAs (Decidable (_ ∧ _))

/-- What the path is followed by. -/
def pathExit (p : List Char) : UriStatus :=
  match pathRest p with
  | '?' :: _ => .validQueries
  | '#' :: _ => .validFragment
  | _ => .valid

/-- `parse_path` stores the path of the standard and goes on behind its end. -/
def StoresPathState (p : List Char) : Prop :=
  ∀ ctx : Ctx Strings, ctx.scheme = .specialScheme → ctx.out .path = [] → ctx.pos = p →
    ∃ ctx', parsePath standardUriParsingOptions stringOutput ctx = .ok ctx' ∧
      ctx'.out .path = whatwgPath p ∧
      ctx'.pos = (pathRest p).tail ∧ ctx'.status.value = pathExit p

/-! ## The segments of a plain path -/

theorem isPlainPathChar_iff : isPlainPathChar c = true ↔ c.toNat < 0x80 ∧ pathEncodeSet c = false := by
  rw [isPlainPathChar, AsciiBitmap.contains, Bool.and_eq_true, decide_eq_true_iff]
  constructor
  · rintro ⟨h, h'⟩
    exact ⟨h, by simpa [h] using h'⟩
  · rintro ⟨h, h'⟩
    exact ⟨h, by simp [h, h']⟩

theorem pathPercentEncodeSet_of_isPlainPathChar (h : isPlainPathChar c = true) :
    pathPercentEncodeSet c = false := by
  obtain ⟨hlt, hset⟩ := isPlainPathChar_iff.mp h
  simp [pathEncodeSet, queriesEncodeSet, c0ControlEncodeSet, c0ControlSet, AsciiBitmap.union,
    bitmapRange, asciiBitmap] at hset
  simp [pathPercentEncodeSet]
  grind

theorem percentEncodeSegment_of_plain
    (h : ∀ c ∈ segment, isPlainPathChar c = true) : percentEncodeSegment segment = segment := by
  induction segment with
  | nil => rfl
  | cons c segment ih =>
      have hc := pathPercentEncodeSet_of_isPlainPathChar (h c (List.mem_cons_self ..))
      have hrest := ih fun c' hc' => h c' (List.mem_cons_of_mem _ hc')
      rw [percentEncodeSegment] at hrest ⊢
      rw [List.flatMap_cons, hrest, hc]
      rfl

theorem not_pathEncodeSet_of_isPlainPathChar (h : isPlainPathChar c = true) :
    pathEncodeSet.contains c = false := by
  rw [isPlainPathChar, Bool.and_eq_true] at h
  simpa using h.2

theorem ne_of_isPlainPathChar {c d : Char} (h : isPlainPathChar c = true)
    (hd : isPlainPathChar d = false) : c ≠ d := by
  rintro rfl
  exact Bool.false_ne_true (hd.symm.trans h)

theorem not_isTabOrNewline_of_isPlainPathChar (h : isPlainPathChar c = true) :
    isTabOrNewline c = false := by
  have htab := ne_of_isPlainPathChar h (show isPlainPathChar '\t' = false by decide)
  have hcr := ne_of_isPlainPathChar h (show isPlainPathChar '\r' = false by decide)
  have hlf := ne_of_isPlainPathChar h (show isPlainPathChar '\n' = false by decide)
  simp [isTabOrNewline, htab, hcr, hlf]

theorem not_pathInteresting (h : isPlainPathChar c = true)
    (hslash : isSlash c = false) (hpercent : c ≠ '%') :
    (pathInteresting stringOutput).contains c = false := by
  have hset := not_pathEncodeSet_of_isPlainPathChar h
  have hunion : pathInteresting stringOutput = pathEncodeSet.union
      (asciiBitmap ['\\', '\x00', '/', '?', '#', '%', '\r', '\n', '\t']) := rfl
  rw [hunion, AsciiBitmap.contains_union, hset, Bool.false_or]
  by_contra hstop
  have hmem := mem_of_asciiBitmap_contains (Bool.not_eq_false _ ▸ hstop)
  simp only [List.mem_cons, List.not_mem_nil, or_false] at hmem
  rcases hmem with rfl | rfl | rfl | rfl | rfl | rfl | rfl | rfl | rfl
  all_goals first
    | exact hpercent rfl
    | exact Bool.false_ne_true (hslash.symm.trans rfl)
    | exact ne_of_isPlainPathChar h (by decide) rfl

theorem countDots_of_isSingleDot (h : isSingleDot segment = true) :
    countDots standardUriParsingOptions segment '\x00' 0 = some 1 := by
  have hall : ∀ segment ∈ dotSpellings,
      countDots standardUriParsingOptions segment '\x00' 0 = some 1 := by decide
  exact hall segment (List.contains_iff_mem.mp h)

theorem countDots_of_isDoubleDot (h : isDoubleDot segment = true) :
    countDots standardUriParsingOptions segment '\x00' 0 = some 2 := by
  have hall : ∀ segment ∈ doubleDotSpellings,
      countDots standardUriParsingOptions segment '\x00' 0 = some 2 := by decide
  exact hall segment (List.contains_iff_mem.mp h)

/-! ## Rounds of the loop -/

/-- The encoder with `chars` stored and at `pos`. -/
def putPath (chars pos : List Char) (e : ComponentEncoder Strings) : ComponentEncoder Strings :=
  (appendTo stringOutput .path chars e).setPos pos

/-- One round of the loop under the standard options. -/
abbrev plainStep := pathStep standardUriParsingOptions stringOutput

/-- What a round does after the encoding. -/
def pathAtStop (e : ComponentEncoder Strings) :
    Run (Flow (ComponentEncoder Strings) (ComponentEncoder Strings)) :=
  match e.ctx.pos with
  | [] => .ok (.done e)
  | c :: _ => pathSwitch standardUriParsingOptions stringOutput e c

theorem plainStep_eq {chars rest : List Char}
    (h : encodeUriComponent pathEncodeSet (pathInteresting stringOutput) e.ctx.pos =
      (chars, rest)) : plainStep e = pathAtStop (putPath chars rest e) := by
  have hw : encodeOrValidate stringOutput .path pathEncodeSet (pathInteresting stringOutput) e =
      (rest.isEmpty, putPath chars rest e) := by
    simp [encodeOrValidate, stringOutput, putPath] at h ⊢
    simp [h]
  simp only [plainStep, pathStep, hw]
  cases rest with
  | nil => rfl
  | cons c rest => rfl

theorem putPath_nil (e : ComponentEncoder Strings) : putPath [] e.ctx.pos e = e := by
  simp [putPath, appendTo, stringOutput, setOut, setPos]

theorem putPath_putPath (chars chars' pos pos' : List Char) (e : ComponentEncoder Strings) :
    putPath chars' pos' (putPath chars pos e) = putPath (chars ++ chars') pos' e := by
  simp [putPath, appendTo, stringOutput, setOut, setPos]

theorem plainStep_nil (h : e.ctx.pos = []) :
    plainStep e = .ok (.done e) := by
  have hw : encodeUriComponent pathEncodeSet (pathInteresting stringOutput) e.ctx.pos =
      ([], e.ctx.pos) := by
    rw [h]
    rfl
  rw [plainStep_eq hw, putPath_nil, pathAtStop, h]

theorem plainStep_interesting {pos : List Char}
    (h : e.ctx.pos = c :: pos) (hc : (pathInteresting stringOutput).contains c = true) :
    plainStep e = pathSwitch standardUriParsingOptions stringOutput e c := by
  have hw : encodeUriComponent pathEncodeSet (pathInteresting stringOutput) e.ctx.pos =
      ([], e.ctx.pos) := by
    rw [h, encodeUriComponent, if_pos hc]
  rw [plainStep_eq hw, putPath_nil, pathAtStop, h]

theorem plainStep_plain {pos : List Char}
    (h : e.ctx.pos = c :: pos) (hc : (pathInteresting stringOutput).contains c = false)
    (hplain : pathEncodeSet.contains c = false) :
    plainStep e = plainStep (putPath [c] pos e) := by
  have hchar : encodeUriChar pathEncodeSet c = [c] := by
    rw [encodeUriChar, hplain]
    rfl
  have hw : encodeUriComponent pathEncodeSet (pathInteresting stringOutput) e.ctx.pos =
      (c :: (encodeUriComponent pathEncodeSet (pathInteresting stringOutput) pos).1,
        (encodeUriComponent pathEncodeSet (pathInteresting stringOutput) pos).2) := by
    rw [h, encodeUriComponent, if_neg (by rw [hc]; exact Bool.false_ne_true), hchar]
    rfl
  have hw' : encodeUriComponent pathEncodeSet (pathInteresting stringOutput)
      (putPath [c] pos e).ctx.pos =
      ((encodeUriComponent pathEncodeSet (pathInteresting stringOutput) pos).1,
        (encodeUriComponent pathEncodeSet (pathInteresting stringOutput) pos).2) := rfl
  rw [plainStep_eq hw, plainStep_eq hw', putPath_putPath, List.singleton_append]

/-- Some rounds lead from `e` to `e'`. -/
abbrev PathLeads (e e' : ComponentEncoder Strings) : Prop :=
  LeadsTo plainStep .diverges (fun e => e.ctx.pos.length) e e'

/-- The rounds from `e` on end with `e'`. -/
abbrev PathEnds (e e' : ComponentEncoder Strings) : Prop :=
  EndsWith plainStep .diverges (fun e => e.ctx.pos.length) e (.ok e')

/-- The encoder is in a segment whose part `done` is read, behind the segments `path`. -/
structure PathAt (path : List (List Char)) (done rest : List Char)
    (e : ComponentEncoder Strings) : Prop where
  beg : e.beg = done ++ rest
  pos : e.ctx.pos = rest
  out : e.ctx.out .path = serializePath path ++ '/' :: done

theorem PathAt.putPath {done chars rest : List Char} (h : PathAt path done (chars ++ rest) e) :
    PathAt path (done ++ chars) rest (putPath chars rest e) where
  beg := by
    rw [List.append_assoc]
    exact h.beg
  pos := rfl
  out := by
    simp [Uri.putPath, appendTo, stringOutput, h.out]

theorem PathAt.leads_plain {done rest : List Char} (h : PathAt path done (c :: rest) e)
    (hc : isPlainPathChar c = true) (hslash : isSlash c = false) (hpercent : c ≠ '%') :
    ∃ e', PathLeads e e' ∧ PathAt path (done ++ [c]) rest e' := by
  refine ⟨Uri.putPath [c] rest e, ?_, h.putPath⟩
  have hset := not_pathEncodeSet_of_isPlainPathChar hc
  refine leadsTo_of_eq (plainStep_plain h.pos (not_pathInteresting hc hslash hpercent) hset) ?_
  rw [h.pos]
  exact Nat.lt_succ_self _

theorem PathAt.leads_percent {done rest : List Char} {valid : Bool} (chars : List Char)
    (h : PathAt path done ('%' :: chars ++ rest) e)
    (hescape : percentEscape true ('%' :: chars ++ rest) = .ok ('%' :: chars, rest, valid)) :
    ∃ e', PathLeads e e' ∧ PathAt path (done ++ '%' :: chars) rest e' := by
  have hpos : e.ctx.pos = '%' :: (chars ++ rest) := h.pos
  have hvalid : validatePercentEncode stringOutput .path true e =
      .ok (valid, Uri.putPath ('%' :: chars) rest e) := by
    rw [validatePercentEncode, h.pos, hescape]
    rfl
  have hstep := plainStep_interesting hpos (by decide)
  have hswitch : pathSwitch standardUriParsingOptions stringOutput e '%' =
      .ok (.next (if valid then Uri.putPath ('%' :: chars) rest e
        else (Uri.putPath ('%' :: chars) rest e).setWarning .invalidCharacter)) := by
    simp only [pathSwitch, standardUriParsingOptions, hvalid, ok_bind]
    rfl
  refine ⟨_, leadsTo_of_next (hstep.trans hswitch) ?_, ?_⟩
  · have hlt : rest.length < e.ctx.pos.length := by
      rw [hpos]
      exact Nat.lt_succ_of_le (List.suffix_append chars rest).length_le
    cases valid with
    | true => exact hlt
    | false => exact hlt
  · have hput := h.putPath
    cases valid with
    | true => exact hput
    | false => exact ⟨hput.beg, hput.pos, hput.out⟩

theorem percentEscape_end : percentEscape true ['%'] = .ok (['%'], [], false) := rfl

theorem percentEscape_digit_end {d : Char} (hd : isHexDigit d = true)
    (htab : isTabOrNewline d = false) :
    percentEscape true ['%', d] = .ok (['%', d], [], false) := by
  simp [percentEscape, percentDigits, hd, htab]

theorem percentEscape_of_not_digit {d : Char} (hd : isHexDigit d = false)
    (htab : isTabOrNewline d = false) (rest : List Char) :
    percentEscape true ('%' :: d :: rest) = .ok (['%', d], rest, false) := by
  simp [percentEscape, percentDigits, hd, htab]

theorem percentEscape_digit {d f : Char} (hd : isHexDigit d = true)
    (htab : isTabOrNewline d = false) (htab' : isTabOrNewline f = false) (rest : List Char) :
    percentEscape true ('%' :: d :: f :: rest) = .ok (['%', d, f], rest, isHexDigit f) := by
  cases hf : isHexDigit f <;> simp [percentEscape, percentDigits, hd, htab, hf, htab']

theorem PathAt.leads_segment (hplain : ∀ c ∈ segment, isPlainPathChar c = true ∧ isSlash c = false)
    (hclosed : rest = [] ∨ escapesClosed segment = true) {done : List Char}
    (h : PathAt path done (segment ++ rest) e) :
    ∃ e', PathLeads e e' ∧ PathAt path (done ++ segment) rest e' := by
  induction segment using escapesClosed.induct generalizing done e with
  | case1 =>
      rw [List.nil_append] at h
      exact ⟨e, .refl e, by rwa [List.append_nil]⟩
  | case2 c =>
      obtain ⟨hc, hslash⟩ := hplain c (List.mem_singleton_self c)
      by_cases hpercent : c = '%'
      · subst hpercent
        have hrest : rest = [] := hclosed.resolve_right (by decide)
        subst hrest
        exact h.leads_percent [] percentEscape_end
      · exact h.leads_plain hc hslash hpercent
  | case3 d hd =>
      have htab := not_isTabOrNewline_of_isPlainPathChar (hplain d (by simp)).1
      have hrest : rest = [] := hclosed.resolve_right (by simp [escapesClosed, hd])
      subst hrest
      exact h.leads_percent [d] (percentEscape_digit_end hd htab)
  | case4 d hd f segment ih =>
      have htab := not_isTabOrNewline_of_isPlainPathChar (hplain d (by simp)).1
      have htab' := not_isTabOrNewline_of_isPlainPathChar (hplain f (by simp)).1
      obtain ⟨e', hlead, hat⟩ := h.leads_percent [d, f] (percentEscape_digit hd htab htab' _)
      obtain ⟨e'', hlead', hat'⟩ := ih (fun c hc => hplain c (by simp [hc]))
        (by simpa [escapesClosed, hd] using hclosed) hat
      refine ⟨e'', hlead.trans hlead', ?_⟩
      rwa [List.append_assoc] at hat'
  | case5 d segment hd ih =>
      have hd' : isHexDigit d = false := Bool.eq_false_iff.mpr hd
      have htab := not_isTabOrNewline_of_isPlainPathChar (hplain d (by simp)).1
      obtain ⟨e', hlead, hat⟩ := h.leads_percent [d] (percentEscape_of_not_digit hd' htab _)
      obtain ⟨e'', hlead', hat'⟩ := ih (fun c hc => hplain c (by simp [hc]))
        (by rwa [escapesClosed_of_not_digit hd'] at hclosed) hat
      refine ⟨e'', hlead.trans hlead', ?_⟩
      rwa [List.append_assoc] at hat'
  | case6 c d segment hpercent ih =>
      obtain ⟨hc, hslash⟩ := hplain c (by simp)
      obtain ⟨e', hlead, hat⟩ := h.leads_plain hc hslash hpercent
      obtain ⟨e'', hlead', hat'⟩ := ih (fun c hc => hplain c (by simp [hc]))
        (by rwa [escapesClosed_of_ne hpercent] at hclosed) hat
      refine ⟨e'', hlead.trans hlead', ?_⟩
      rwa [List.append_assoc] at hat'

/-! ## The end of a segment -/

/-- The segments that can stand in a stored path. -/
def SlashFree (path : List (List Char)) : Prop := ∀ segment ∈ path, '/' ∉ segment

theorem popBackSegment_eq (e : ComponentEncoder Strings) :
    popBackSegment stringOutput e =
      .ok (e.setOut (Function.update e.ctx.out .path (popBackText (e.ctx.out .path)))) := rfl

theorem clearSegment_eq (e : ComponentEncoder Strings) :
    clearSegment standardUriParsingOptions stringOutput e =
      .ok (e.setOut (Function.update e.ctx.out .path
        (popBackText (e.ctx.out .path)))).resetBegin := rfl

theorem handleDotsInPaths_eq (e : ComponentEncoder Strings) :
    handleDotsInPaths standardUriParsingOptions stringOutput e =
      match countDots standardUriParsingOptions (slice e.beg e.ctx.pos) '\x00' 0 with
      | some 1 => do
          let e ← clearSegment standardUriParsingOptions stringOutput e
          pure (true, e)
      | some 2 => do
          let e ← popBackSegment stringOutput e
          let e ← clearSegment standardUriParsingOptions stringOutput e
          pure (true, e)
      | _ => pure (false, e) := rfl

section SegmentEnd

variable {path : List (List Char)} {segment rest : List Char} {e : ComponentEncoder Strings}

theorem ne_nil_of_countDots {dots : UInt8} (hdots : dots ≠ 0)
    (h : countDots standardUriParsingOptions segment '\x00' 0 = some dots) : segment ≠ [] := by
  rintro rfl
  exact hdots (Option.some.inj h).symm

theorem PathAt.clearSegment (h : PathAt path segment rest e) (hne : segment ≠ [])
    (hsegment : '/' ∉ segment) :
    ∃ e', clearSegment standardUriParsingOptions stringOutput e = .ok e' ∧
      PathAt path [] rest e' := by
  refine ⟨_, clearSegment_eq e, h.pos, h.pos, ?_⟩
  simp [resetBegin, h.out, popBackText_segment path hne hsegment]

theorem PathAt.clearTwoSegments (h : PathAt path segment rest e) (hpath : SlashFree path)
    (hne : segment ≠ []) (hsegment : '/' ∉ segment) :
    ∃ e' e'', popBackSegment stringOutput e = .ok e' ∧
      Uri.clearSegment standardUriParsingOptions stringOutput e' = .ok e'' ∧
      PathAt path.dropLast [] rest e'' := by
  refine ⟨_, _, popBackSegment_eq e, clearSegment_eq _, h.pos, h.pos, ?_⟩
  simp [resetBegin, h.out, popBackText_segment path hne hsegment, popBackText_slash path hpath]

theorem handleDotsInPaths_status {found : Bool} {e' : ComponentEncoder Strings}
    (h : handleDotsInPaths standardUriParsingOptions stringOutput e = .ok (found, e')) :
    e'.ctx.status = e.ctx.status := by
  rw [handleDotsInPaths_eq] at h
  split at h
  · rw [clearSegment_eq, ok_bind] at h
    cases h
    rfl
  · rw [popBackSegment_eq, ok_bind, clearSegment_eq, ok_bind] at h
    cases h
    rfl
  · cases h
    rfl

theorem PathAt.handleDotsInPaths (h : PathAt path segment rest e) (hpath : SlashFree path)
    (hsegment : '/' ∉ segment) (hdots : DotsAgree segment) :
    (isDoubleDot segment = true ∧ ∃ e', PathAt path.dropLast [] rest e' ∧
        Uri.handleDotsInPaths standardUriParsingOptions stringOutput e = .ok (true, e')) ∨
      (isDoubleDot segment = false ∧ isSingleDot segment = true ∧
        ∃ e', PathAt path [] rest e' ∧
          Uri.handleDotsInPaths standardUriParsingOptions stringOutput e = .ok (true, e')) ∨
      (isDoubleDot segment = false ∧ isSingleDot segment = false ∧
        Uri.handleDotsInPaths standardUriParsingOptions stringOutput e = .ok (false, e)) := by
  have hslice : slice e.beg e.ctx.pos = segment := by
    rw [h.beg, h.pos, slice_append]
  have hdef := handleDotsInPaths_eq e
  rw [hslice] at hdef
  cases hdouble : isDoubleDot segment with
  | true =>
      have hcount := countDots_of_isDoubleDot hdouble
      obtain ⟨e', e'', hpop, hclear, hat⟩ :=
        h.clearTwoSegments hpath (ne_nil_of_countDots (by decide) hcount) hsegment
      refine .inl ⟨rfl, e'', hat, ?_⟩
      rw [hdef, hcount]
      simp only [hpop, hclear, ok_bind]
      rfl
  | false =>
      cases hsingle : isSingleDot segment with
      | true =>
          have hcount := countDots_of_isSingleDot hsingle
          obtain ⟨e', hclear, hat⟩ :=
            h.clearSegment (ne_nil_of_countDots (by decide) hcount) hsegment
          refine .inr (.inl ⟨rfl, rfl, e', hat, ?_⟩)
          rw [hdef, hcount]
          simp only [hclear, ok_bind]
          rfl
      | false =>
          refine .inr (.inr ⟨rfl, rfl, ?_⟩)
          have h1 := fun hcount => Bool.false_ne_true (hsingle.symm.trans (hdots.1 hcount))
          have h2 := fun hcount => Bool.false_ne_true (hdouble.symm.trans (hdots.2 hcount))
          rw [hdef]
          split
          · exact absurd ‹_› h1
          · exact absurd ‹_› h2
          · rfl

theorem nextSegmentOf_eq {rest : List Char} (h : e.ctx.pos = c :: rest) :
    nextSegmentOf stringOutput .path '/' e = .ok (Uri.putPath ['/'] rest e).resetBegin := by
  simp [nextSegmentOf, isSeg, isVec, isMap, stringOutput, ignoreCharacter, appendTo, h,
    endSegment, endSegmentOf, resetSegmentStart, Uri.putPath]

theorem PathAt.nextSegmentOf (h : PathAt path segment (c :: rest) e) :
    PathAt (path ++ [segment]) [] rest (Uri.putPath ['/'] rest e).resetBegin := by
  refine ⟨rfl, rfl, ?_⟩
  simp [Uri.putPath, appendTo, stringOutput, h.out, serializePath_append, resetBegin]

theorem PathAt.pathSlash (h : PathAt path segment (c :: rest) e)
    (hpath : SlashFree path) (hsegment : ∀ c ∈ segment, isPlainPathChar c = true ∧
      isSlash c = false) (hdots : DotsAgree segment) :
    ∃ e', Uri.pathSlash standardUriParsingOptions stringOutput e = .ok (.next e') ∧
      PathAt (pushSegment path segment) [] rest e' := by
  have hslash : '/' ∉ segment := fun hmem => Bool.false_ne_true (hsegment _ hmem).2.symm
  have hpass : ∀ {path e'}, PathAt path [] (c :: rest) e' →
      Uri.handleDotsInPaths standardUriParsingOptions stringOutput e = .ok (true, e') →
      Uri.pathSlash standardUriParsingOptions stringOutput e =
        .ok (.next (e'.setPos rest).resetBegin) ∧ PathAt path [] rest (e'.setPos rest).resetBegin := by
    intro path e' hat hhandle
    refine ⟨?_, rfl, rfl, hat.out⟩
    simp only [Uri.pathSlash, hhandle, ok_bind, ignoreCharacter, hat.pos, advance_one_cons]
    rfl
  rw [pushSegment]
  rcases h.handleDotsInPaths hpath hslash hdots with
    ⟨hd, e', hat, hhandle⟩ | ⟨hd, hs, e', hat, hhandle⟩ | ⟨hd, hs, hhandle⟩
  · rw [if_pos hd]
    exact ⟨_, hpass hat hhandle⟩
  · rw [if_neg (Bool.eq_false_iff.mp hd), if_pos hs]
    exact ⟨_, hpass hat hhandle⟩
  · rw [if_neg (Bool.eq_false_iff.mp hd), if_neg (Bool.eq_false_iff.mp hs),
      percentEncodeSegment_of_plain fun c hc => (hsegment c hc).1]
    refine ⟨_, ?_, h.nextSegmentOf⟩
    simp only [Uri.pathSlash, hhandle, ok_bind, Bool.false_eq_true, if_false,
      nextSegmentOf_eq h.pos]
    rfl

theorem plainStep_slash (h : e.ctx.pos = c :: rest) (hc : isSlash c = true) :
    ∃ e', plainStep e = Uri.pathSlash standardUriParsingOptions stringOutput e' ∧
      e'.beg = e.beg ∧ e'.ctx.pos = e.ctx.pos ∧ e'.ctx.out = e.ctx.out := by
  rw [isSlash, Bool.or_eq_true, beq_iff_eq, beq_iff_eq] at hc
  rcases hc with rfl | rfl
  · exact ⟨e, plainStep_interesting h (by decide), rfl, rfl, rfl⟩
  · exact ⟨e.setWarning .reverseSolidusUsed, plainStep_interesting h (by decide), rfl, rfl,
      rfl⟩

theorem PathAt.leads_slash (h : PathAt path segment (c :: rest) e)
    (hpath : SlashFree path) (hsegment : ∀ c ∈ segment, isPlainPathChar c = true ∧
      isSlash c = false) (hdots : DotsAgree segment) (hc : isSlash c = true) :
    ∃ e', PathLeads e e' ∧ PathAt (pushSegment path segment) [] rest e' := by
  obtain ⟨e₁, hstep, hbeg, hpos, hout⟩ := plainStep_slash h.pos hc
  have hat₁ : PathAt path segment (c :: rest) e₁ :=
    ⟨hbeg.trans h.beg, hpos.trans h.pos, (congrFun hout .path).trans h.out⟩
  obtain ⟨e', hslash, hat⟩ := hat₁.pathSlash hpath hsegment hdots
  refine ⟨e', leadsTo_of_next (hstep.trans hslash) ?_, hat⟩
  rw [h.pos, hat.pos]
  exact Nat.lt_succ_self _

theorem PathAt.pathEnd (h : PathAt path segment rest e) (hpath : SlashFree path)
    (hsegment : ∀ c ∈ segment, isPlainPathChar c = true ∧ isSlash c = false)
    (hdots : DotsAgree segment) (hrest : ∀ c ∈ rest.head?, isPathEnd c = true) :
    ∃ ctx', Uri.pathEnd standardUriParsingOptions stringOutput e = .ok ctx' ∧
      ctx'.out .path = serializePath (pushLast path segment) ∧ ctx'.pos = rest.tail ∧
      ctx'.status.value = if rest = [] then .valid else e.ctx.status.value := by
  have hslash : '/' ∉ segment := fun hmem => Bool.false_ne_true (hsegment _ hmem).2.symm
  have hhandle : ∃ found e' path' done, 
      Uri.handleDotsInPaths standardUriParsingOptions stringOutput e = .ok (found, e') ∧
        PathAt path' done rest e' ∧ 
        serializePath path' ++ '/' :: done = serializePath (pushLast path segment) := by
    rw [pushLast]
    rcases h.handleDotsInPaths hpath hslash hdots with
      ⟨hd, e', hat, hhandle⟩ | ⟨hd, hs, e', hat, hhandle⟩ | ⟨hd, hs, hhandle⟩
    · rw [if_pos hd]
      exact ⟨true, e', _, _, hhandle, hat, (serializePath_append ..).symm⟩
    · rw [if_neg (Bool.eq_false_iff.mp hd), if_pos hs]
      exact ⟨true, e', _, _, hhandle, hat, (serializePath_append ..).symm⟩
    · rw [if_neg (Bool.eq_false_iff.mp hd), if_neg (Bool.eq_false_iff.mp hs),
        percentEncodeSegment_of_plain fun c hc => (hsegment c hc).1]
      exact ⟨false, e, _, _, hhandle, h, (serializePath_append ..).symm⟩
  obtain ⟨found, e', path', done, hhandle, hat, htext⟩ := hhandle
  have hset : setValue stringOutput .path (endSegment stringOutput .path e') = e' := rfl
  rw [← htext, ← hat.out, ← handleDotsInPaths_status hhandle]
  cases rest with
  | nil =>
      refine ⟨(e'.setValid .valid).ctx, ?_, rfl, hat.pos, rfl⟩
      have hvalue : (e'.ctx.out .path).isEmpty = false := by
        rw [hat.out]
        simp
      simp only [Uri.pathEnd, hhandle, ok_bind, hset]
      simp [hat.pos, hvalue, stringOutput]
      rfl
  | cons c rest =>
      have hc : c ≠ '\x00' := by
        rintro rfl
        exact absurd (hrest _ rfl) (by decide)
      refine ⟨(e'.setPos rest).ctx, ?_, rfl, rfl, rfl⟩
      simp only [Uri.pathEnd, hhandle, ok_bind, hset]
      simp [hat.pos, hc, standardUriParsingOptions, ignoreCharacter]

end SegmentEnd

/-! ## Whole paths -/

/-- The loop ends at a `?`, at a `#` and at the end of the input. -/
theorem PathAt.ends (h : PathAt path segment rest e)
    (hrest : ∀ c ∈ rest.head?, isPathEnd c = true) :
    ∃ e', plainStep e = .ok (.done e') ∧ PathAt path segment rest e' ∧ 
      (rest ≠ [] → e'.ctx.status.value = pathExit rest) := by
  cases rest with
  | nil => exact ⟨e, plainStep_nil h.pos, h, fun h => absurd rfl h⟩
  | cons c rest =>
      have hc := hrest c rfl
      rw [isPathEnd, Bool.or_eq_true, beq_iff_eq, beq_iff_eq] at hc
      rcases hc with rfl | rfl
      · refine ⟨e.setValid .validQueries, ?_, ⟨h.beg, h.pos, h.out⟩, fun _ => rfl⟩
        rw [plainStep_interesting h.pos (by decide)]
        rfl
      · refine ⟨e.setValid .validFragment, ?_, ⟨h.beg, h.pos, h.out⟩, fun _ => rfl⟩
        rw [plainStep_interesting h.pos (by decide)]
        rfl

theorem PathAt.ends_last (hpath : SlashFree path) (h : PathAt path [] (segment ++ rest) e)
    (hsegment : ∀ c ∈ segment, isPlainPathChar c = true ∧ isSlash c = false)
    (hdots : DotsAgree segment) (hclosed : rest = [] ∨ escapesClosed segment = true) 
    (hrest : ∀ c ∈ rest.head?, isPathEnd c = true) :
    ∃ e' ctx', PathEnds e e' ∧
      Uri.pathEnd standardUriParsingOptions stringOutput e' = .ok ctx' ∧
      ctx'.out .path = serializePath (pushLast path segment) ∧ ctx'.pos = rest.tail ∧
      ctx'.status.value = pathExit rest := by
  obtain ⟨e₁, hlead, hat₁⟩ := h.leads_segment hsegment hclosed
  obtain ⟨e₂, hstep, hat₂, hstatus⟩ := hat₁.ends hrest
  obtain ⟨ctx', hend, hout, hpos, hvalue⟩ := hat₂.pathEnd hpath hsegment hdots hrest
  refine ⟨e₂, ctx', hlead.ends (endsWith_of_done hstep), hend, hout, hpos, ?_⟩
  rw [hvalue]
  split
  · subst ‹rest = []›
    rfl
  · exact hstatus ‹_›

theorem exists_first_slash (t : List Char) :
    (∀ c ∈ t, isSlash c = false) ∨
      ∃ segment c t', t = segment ++ c :: t' ∧ (∀ c ∈ segment, isSlash c = false) ∧
        isSlash c = true := by
  induction t with
  | nil => exact .inl fun c h => absurd h List.not_mem_nil
  | cons c t ih =>
      cases hc : isSlash c with
      | true => exact .inr ⟨[], c, t, rfl, fun c h => absurd h List.not_mem_nil, hc⟩
      | false =>
          rcases ih with hall | ⟨segment, d, t', rfl, hall, hd⟩
          · exact .inl (List.forall_mem_cons.mpr ⟨hc, hall⟩)
          · exact .inr ⟨c :: segment, d, t', rfl, List.forall_mem_cons.mpr ⟨hc, hall⟩, hd⟩

theorem pushSegment_slashFree (hpath : SlashFree path)
    (hsegment : ∀ c ∈ segment, isPlainPathChar c = true ∧ isSlash c = false) :
    SlashFree (pushSegment path segment) := by
  rw [pushSegment]
  split
  · exact fun s hs => hpath s (List.mem_of_mem_dropLast hs)
  · split
    · exact hpath
    · rw [percentEncodeSegment_of_plain fun c hc => (hsegment c hc).1]
      intro s hs
      rcases List.mem_append.mp hs with hs | hs
      · exact hpath s hs
      · rw [List.mem_singleton.mp hs]
        exact fun hmem => Bool.false_ne_true (hsegment _ hmem).2.symm

theorem pathState_cons (path : List (List Char)) (segment : List Char)
    {segments : List (List Char)} (h : segments ≠ []) :
    pathState path (segment :: segments) = pathState (pushSegment path segment) segments := by
  cases segments with
  | nil => exact absurd rfl h
  | cons s segments => rfl

/-- The segments of `t` in which an escape has to end before `rest`. -/
def closedSegments (t rest : List Char) : List (List Char) :=
  if rest = [] then (t.splitOnP isSlash).dropLast else t.splitOnP isSlash

/-- The rounds over the path `t`. -/
theorem PathAt.ends_text {rest : List Char} (hrest : ∀ c ∈ rest.head?, isPathEnd c = true)
    (t : List Char) (hpath : SlashFree path) (h : PathAt path [] (t ++ rest) e)
    (hplain : ∀ c ∈ t, isPlainPathChar c = true)
    (hdots : ∀ segment ∈ t.splitOnP isSlash, DotsAgree segment)
    (hclosed : ∀ segment ∈ closedSegments t rest, escapesClosed segment = true) :
    ∃ e' ctx', PathEnds e e' ∧
      Uri.pathEnd standardUriParsingOptions stringOutput e' = .ok ctx' ∧
      ctx'.out .path = serializePath (pathState path (t.splitOnP isSlash)) ∧
      ctx'.pos = rest.tail ∧ ctx'.status.value = pathExit rest := by
  induction hlen : t.length using Nat.strong_induction_on generalizing t path e with
  | _ n ih =>
      rcases exists_first_slash t with hall | ⟨segment, c, t', rfl, hall, hc⟩
      · have hsplit := List.splitOnP_eq_singleton hall
        rw [hsplit] at hdots ⊢
        refine h.ends_last hpath (fun c hc => ⟨hplain c hc, hall c hc⟩)
          (hdots t (List.mem_singleton_self t)) ?_ hrest
        by_cases hnil : rest = []
        · exact .inl hnil
        · rw [closedSegments, if_neg hnil, hsplit] at hclosed
          exact .inr (hclosed t (List.mem_singleton_self t))
      · have hsplit := List.splitOnP_append_cons_of_forall_mem hall c hc t'
        have hne := List.splitOnP_ne_nil isSlash t'
        have hseg : ∀ c ∈ segment, isPlainPathChar c = true ∧ isSlash c = false :=
          fun c hc => ⟨hplain c (List.mem_append_left _ hc), hall c hc⟩
        have hclosed' : closedSegments (segment ++ c :: t') rest =
            segment :: closedSegments t' rest := by
          rw [closedSegments, closedSegments, hsplit, List.dropLast_cons_of_ne_nil hne]
          split <;> rfl
        rw [hclosed', List.forall_mem_cons] at hclosed
        rw [hsplit, List.forall_mem_cons] at hdots
        rw [List.append_assoc] at h
        obtain ⟨e₁, hlead₁, hat₁⟩ := h.leads_segment hseg (.inr hclosed.1)
        obtain ⟨e₂, hlead₂, hat₂⟩ := hat₁.leads_slash hpath hseg hdots.1 hc
        have hlt : t'.length < n := by
          rw [← hlen, List.length_append, List.length_cons]
          omega
        obtain ⟨e', ctx', hends, hend⟩ := ih _ hlt t' (pushSegment_slashFree hpath hseg) hat₂
          (fun c' hc' => hplain c' (List.mem_append_right _ (List.mem_cons_of_mem _ hc')))
          hdots.2 hclosed.2 rfl
        rw [hsplit, pathState_cons _ _ hne]
        exact ⟨e', ctx', (hlead₁.trans hlead₂).ends hends, hend⟩

theorem leads_first {t : List Char}
    (hbeg : e.beg = c :: t) (hpos : e.ctx.pos = c :: t) (hout : e.ctx.out .path = [])
    (hc : isSlash c = true) : ∃ e', PathLeads e e' ∧ PathAt [] [] t e' := by
  obtain ⟨e₁, hstep, hbeg₁, hpos₁, hout₁⟩ := plainStep_slash hpos hc
  have hslice : slice e₁.beg e₁.ctx.pos = [] := by
    rw [hbeg₁, hbeg, hpos₁, hpos, slice, Nat.sub_self, List.take_zero]
  have hhandle : handleDotsInPaths standardUriParsingOptions stringOutput e₁ =
      .ok (false, e₁) := by
    rw [handleDotsInPaths_eq, hslice]
    rfl
  have hslash : pathSlash standardUriParsingOptions stringOutput e₁ =
      .ok (.next (putPath ['/'] t e₁).resetBegin) := by
    simp only [pathSlash, hhandle, ok_bind, Bool.false_eq_true, if_false,
      nextSegmentOf_eq (hpos₁.trans hpos)]
    rfl
  refine ⟨_, leadsTo_of_next (hstep.trans hslash) ?_, rfl, rfl, ?_⟩
  · rw [hpos]
    exact Nat.lt_succ_self _
  · simp [putPath, appendTo, stringOutput, resetBegin, hout₁, hout, serializePath]

theorem pathRest_head (p : List Char) : ∀ c ∈ (pathRest p).head?, isPathEnd c = true := by
  intro c hc
  have hstop := List.head?_dropWhile_not (fun c => !isPathEnd c) p
  rw [show (p.dropWhile fun c => !isPathEnd c).head? = some c from hc] at hstop
  simpa using hstop

theorem pathText_append_pathRest (p : List Char) : pathText p ++ pathRest p = p :=
  List.takeWhile_append_dropWhile

theorem pathRest_eq_nil (p : List Char) : pathText p = p ↔ pathRest p = [] := by
  constructor
  · intro h
    have happ := pathText_append_pathRest p
    rw [h] at happ
    simpa using happ
  · intro h
    have happ := pathText_append_pathRest p
    rwa [h, List.append_nil] at happ

theorem parsePath_of_ends {ctx ctx' : Ctx Strings} {e' : ComponentEncoder Strings}
    (hscheme : ctx.scheme = .specialScheme) (hends : PathEnds (ofCtx ctx) e')
    (hend : pathEnd standardUriParsingOptions stringOutput e' = .ok ctx') :
    parsePath standardUriParsingOptions stringOutput ctx = .ok ctx' := by
  have hspecial : isSpecialScheme ctx.scheme = true := by
    rw [hscheme]
    rfl
  have hdrive : handleWindowsDriverLetter standardUriParsingOptions stringOutput
      (startSegment stringOutput .path (ofCtx ctx)) = .ok (ofCtx ctx) := by
    have hstart : startSegment stringOutput .path (ofCtx ctx) = ofCtx ctx := rfl
    have hfile : isFileScheme (ofCtx ctx).ctx.scheme = false := by
      rw [ofCtx, hscheme]
      rfl
    rw [hstart, handleWindowsDriverLetter, hfile, Bool.and_false]
    rfl
  rw [parsePath, if_pos hspecial, hdrive, ok_bind, hends _ (Nat.lt_succ_self _), ok_bind, hend]

theorem pathEnd_nil {ctx : Ctx Strings} (hscheme : ctx.scheme = .specialScheme)
    (hpos : ctx.pos = []) (hout : ctx.out .path = []) :
    ∃ ctx', pathEnd standardUriParsingOptions stringOutput (ofCtx ctx) = .ok ctx' ∧
      ctx'.out .path = whatwgPath [] ∧ ctx'.pos = (pathRest []).tail ∧
      ctx'.status.value = pathExit [] := by
  have hhandle : handleDotsInPaths standardUriParsingOptions stringOutput (ofCtx ctx) =
      .ok (false, ofCtx ctx) := by
    rw [handleDotsInPaths_eq, slice, ofCtx, hpos]
    rfl
  have hset : setValue stringOutput .path (endSegment stringOutput .path (ofCtx ctx)) =
      ofCtx ctx := rfl
  have hvalue : stringOutput.hasValue .path (ofCtx ctx).ctx.out = false := by
    simp [stringOutput, ofCtx, hout]
  have hspecial : isSpecialScheme (ofCtx ctx).ctx.scheme = true := by
    rw [ofCtx, hscheme]
    rfl
  have hat : (ofCtx ctx).ctx.pos = [] := hpos
  have hnext : nextSegmentOf stringOutput .path '/' (ofCtx ctx) 0 =
      .ok (putPath ['/'] [] (ofCtx ctx)).resetBegin := by
    simp [nextSegmentOf, isSeg, isVec, isMap, stringOutput, ignoreCharacter, appendTo, hat,
      endSegment, endSegmentOf, resetSegmentStart, putPath]
  refine ⟨((putPath ['/'] [] (ofCtx ctx)).resetBegin.setValid .valid).ctx, ?_, ?_, rfl, rfl⟩
  · simp only [pathEnd, hhandle, ok_bind, hset, hat, hspecial, hvalue, hnext]
    rfl
  · have htext : whatwgPath [] = ['/'] := by decide
    rw [htext]
    simp [putPath, appendTo, stringOutput, resetBegin, setValid, ofCtx, hout]

/-- `parse_path` stores the path of the standard for every plain path. -/
theorem parsePath_storesPathState (p : List Char) (h : PlainPath p) : StoresPathState p := by
  intro ctx hscheme hout hpos
  cases p with
  | nil =>
      obtain ⟨ctx', hpathEnd, hstored⟩ := pathEnd_nil hscheme hpos hout
      exact ⟨ctx', parsePath_of_ends hscheme (endsWith_of_done (plainStep_nil hpos)) hpathEnd,
        hstored⟩
  | cons c t =>
      have hc : isSlash c = true := h.slash c rfl
      have hend : isPathEnd c = false := by
        rw [isSlash, Bool.or_eq_true, beq_iff_eq, beq_iff_eq] at hc
        rcases hc with rfl | rfl <;> rfl
      have htext : pathText (c :: t) = c :: pathText t := by
        rw [pathText, List.takeWhile_cons, hend]
        rfl
      have hrest : pathRest (c :: t) = pathRest t := by
        rw [pathRest, List.dropWhile_cons, hend]
        rfl
      have hsegments : pathSegments (pathText (c :: t)) = (pathText t).splitOnP isSlash := by
        rw [htext, pathSegments, if_pos hc]
      obtain ⟨e₁, hlead, hat⟩ := leads_first (e := ofCtx ctx) hpos hpos hout hc
      have hclosed : ∀ segment ∈ closedSegments (pathText t) (pathRest t),
          escapesClosed segment = true := by
        have := h.closed
        simp only [hsegments, pathRest_eq_nil, hrest] at this
        exact this
      rw [← pathText_append_pathRest t] at hat
      obtain ⟨e', ctx', hends, hpathEnd, hstored⟩ := hat.ends_text (pathRest_head t) _
        (fun segment hmem => absurd hmem List.not_mem_nil)
        (fun c' hc' => h.plain c' (by rw [htext]; exact List.mem_cons_of_mem _ hc'))
        (by rw [← hsegments]; exact h.dots) hclosed
      refine ⟨ctx', parsePath_of_ends hscheme (hlead.ends hends) hpathEnd, ?_⟩
      have hexit : pathExit (c :: t) = pathExit (pathRest t) := by
        rw [pathExit, pathExit, hrest, show pathRest (pathRest t) = pathRest t from
          List.dropWhile_idempotent _ _]
      rw [hexit, hrest, whatwgPath, hsegments]
      exact hstored

theorem parsePath_storesPathState_dots :
    PlainPath ['/', 'a', '/', '%', '2', 'E', '.', '\\', 'b', '/', '.', '?'] ∧
      StoresPathState ['/', 'a', '/', '%', '2', 'E', '.', '\\', 'b', '/', '.', '?'] := by
  have hslash : ∀ c ∈ some '/', isSlash c := fun c hc => Option.some.inj hc ▸ rfl
  have hplain : PlainPath ['/', 'a', '/', '%', '2', 'E', '.', '\\', 'b', '/', '.', '?'] :=
    ⟨hslash, by decide, by decide, by decide⟩
  exact ⟨hplain, parsePath_storesPathState _ hplain⟩

/-- A context before the path `p`. -/
def pathCtx (p : List Char) : Ctx Strings :=
  ⟨p, p, fun _ => [], ⟨.validPath, ∅⟩, .specialScheme⟩

/-- A `%` that begins no escape takes the `?` behind it into the path. -/
theorem parsePath_not_storesPathState :
    ¬ ∀ p : List Char, (∀ c ∈ pathText p, c ∉ ['\t', '\r', '\n', '\x00']) →
      StoresPathState p := by
  intro h
  obtain ⟨ctx', hparse, hout, _⟩ :=
    h ['/', '%', '?', 'q'] (by decide) (pathCtx ['/', '%', '?', 'q']) rfl rfl rfl
  have hrun : (parsePath standardUriParsingOptions stringOutput
      (pathCtx ['/', '%', '?', 'q'])).map (fun ctx => ctx.out .path) =
      .ok ['/', '%', '?', 'q'] := rfl
  rw [hparse] at hrun
  have hpath : ctx'.out .path = ['/', '%', '?', 'q'] := Except.ok.inj hrun
  have htext : whatwgPath ['/', '%', '?', 'q'] = ['/', '%'] := by decide
  rw [hpath, htext] at hout
  exact absurd hout (by decide)

end Webpp.Uri
