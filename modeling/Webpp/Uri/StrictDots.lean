import Webpp.Uri.DotSegments

/-!
# Dot segments under the strict options

Under the strict options a segment is taken off the output by its length in the input. Behind
two dots the segment before them, and they with it, are removed first, so that their length is
taken off what is left of the path.
-/

namespace Webpp.Uri

open ComponentEncoder

/-- The segment is one of dots, and the path ends as they say. -/
def TakesBack (path : List (List Char)) (segment : List Char)
    (result : Run (Bool × ComponentEncoder Strings)) : Prop :=
  ∃ e', result = .ok (true, e') ∧ e'.ctx.out .path =
    serializePath (if isDoubleDot segment = true then path.dropLast else path) ++ ['/']

theorem eraseLast_append (front chars : List Char) :
    eraseLast chars.length (front ++ chars) = .ok front := by
  have hle : chars.length ≤ (front ++ chars).length := by
    rw [List.length_append]
    exact Nat.le_add_left ..
  rw [eraseLast, if_pos hle, List.length_append, Nat.add_sub_cancel, List.take_left]
  rfl

/-- The encoder at the start of a segment, with the path `text`. -/
def withPath (text : List Char) (e : ComponentEncoder Strings) : ComponentEncoder Strings :=
  (e.setOut (Function.update e.ctx.out .path text)).resetBegin

@[simp] theorem withPath_path (text : List Char) (e : ComponentEncoder Strings) :
    (withPath text e).ctx.out .path = text := by
  show Function.update e.ctx.out .path text .path = text
  rw [Function.update_self]

@[simp] theorem setOut_path (text : List Char) (e : ComponentEncoder Strings) :
    (e.setOut (Function.update e.ctx.out .path text)).ctx.out .path = text := by
  show Function.update e.ctx.out .path text .path = text
  rw [Function.update_self]

theorem clearSegment_strict (e : ComponentEncoder Strings) :
    clearSegment strictUriParsingOptions stringOutput e =
      (eraseLast (e.beg.length - e.ctx.pos.length) (e.ctx.out .path)).map (withPath · e) := by
  show ((eraseLast _ _ >>= _) >>= _) = _
  cases eraseLast (e.beg.length - e.ctx.pos.length) (e.ctx.out .path) with
  | ok text => rfl
  | error fault => rfl

section Dots

variable {path : List (List Char)} {segment rest : List Char} {e : ComponentEncoder Strings}

theorem countDots_strict_single (h : isSingleDot segment = true) :
    countDots strictUriParsingOptions segment '\x00' 0 = some 1 := by
  have hall : ∀ segment ∈ dotSpellings,
      countDots strictUriParsingOptions segment '\x00' 0 = some 1 := by decide
  exact hall segment (List.contains_iff_mem.mp h)

theorem countDots_strict_double (h : isDoubleDot segment = true) :
    countDots strictUriParsingOptions segment '\x00' 0 = some 2 := by
  have hall : ∀ segment ∈ doubleDotSpellings,
      countDots strictUriParsingOptions segment '\x00' 0 = some 2 := by decide
  exact hall segment (List.contains_iff_mem.mp h)

theorem not_mem_of_isDots (h : IsDots segment) : '/' ∉ segment := by
  have hsingle : ∀ segment ∈ dotSpellings, '/' ∉ segment := by decide
  have hdouble : ∀ segment ∈ doubleDotSpellings, '/' ∉ segment := by decide
  rcases h with h | h
  · exact hsingle segment (List.contains_iff_mem.mp h)
  · exact hdouble segment (List.contains_iff_mem.mp h)

theorem ne_nil_of_isDots (h : IsDots segment) : segment ≠ [] := by
  rcases h with h | h
  · rintro rfl
    exact absurd h (by decide)
  · rintro rfl
    exact absurd h (by decide)

theorem one_lt_length_of_isDoubleDot (h : isDoubleDot segment = true) : 1 < segment.length := by
  have hall : ∀ segment ∈ doubleDotSpellings, 1 < segment.length := by decide
  exact hall segment (List.contains_iff_mem.mp h)

theorem not_isDoubleDot_of_isSingleDot (h : isSingleDot segment = true) :
    isDoubleDot segment = false := by
  have hall : ∀ segment ∈ dotSpellings, isDoubleDot segment = false := by decide
  exact hall segment (List.contains_iff_mem.mp h)

theorem handleDotsInPaths_strict_single (h : countDots strictUriParsingOptions
    (slice e.beg e.ctx.pos) '\x00' 0 = some 1) :
    handleDotsInPaths strictUriParsingOptions stringOutput e =
      (clearSegment strictUriParsingOptions stringOutput e).map (true, ·) := by
  have hhandled : strictUriParsingOptions.handleDotsInPaths = true := rfl
  rw [handleDotsInPaths, if_pos hhandled, h]
  rfl

theorem handleDotsInPaths_strict_double (h : countDots strictUriParsingOptions
    (slice e.beg e.ctx.pos) '\x00' 0 = some 2) :
    handleDotsInPaths strictUriParsingOptions stringOutput e =
      (clearSegment strictUriParsingOptions stringOutput
        (e.setOut (Function.update e.ctx.out .path (popBackText (e.ctx.out .path))))).map
          (true, ·) := by
  have hhandled : strictUriParsingOptions.handleDotsInPaths = true := rfl
  rw [handleDotsInPaths, if_pos hhandled, h]
  rfl

theorem PathAt.length_eq (h : PathAt path segment rest e) :
    e.beg.length - e.ctx.pos.length = segment.length := by
  rw [h.beg, h.pos, List.length_append, Nat.add_sub_cancel]

theorem PathAt.slice_eq (h : PathAt path segment rest e) : slice e.beg e.ctx.pos = segment := by
  rw [h.beg, h.pos, slice_append]

theorem takesBack_single (h : PathAt path segment rest e) (hdot : isSingleDot segment = true) :
    TakesBack path segment (handleDotsInPaths strictUriParsingOptions stringOutput e) := by
  have hcount : countDots strictUriParsingOptions (slice e.beg e.ctx.pos) '\x00' 0 = some 1 := by
    rw [h.slice_eq]
    exact countDots_strict_single hdot
  have hout : e.ctx.out .path = (serializePath path ++ ['/']) ++ segment := by
    rw [h.out]
    simp
  rw [handleDotsInPaths_strict_single hcount, clearSegment_strict, h.length_eq, hout,
    eraseLast_append]
  refine ⟨_, rfl, ?_⟩
  rw [not_isDoubleDot_of_isSingleDot hdot, if_neg Bool.false_ne_true, withPath_path]

/-- What two dots leave is the path without as many characters as the dots have. -/
theorem takesBack_double (h : PathAt path segment rest e) (hdots : isDoubleDot segment = true) :
    TakesBack path segment (handleDotsInPaths strictUriParsingOptions stringOutput e) ↔
      eraseLast segment.length (serializePath path ++ ['/']) =
        .ok (serializePath path.dropLast ++ ['/']) := by
  have hcount : countDots strictUriParsingOptions (slice e.beg e.ctx.pos) '\x00' 0 = some 2 := by
    rw [h.slice_eq]
    exact countDots_strict_double hdots
  have hpop : popBackText (e.ctx.out .path) = serializePath path ++ ['/'] := by
    rw [h.out]
    exact popBackText_segment path (ne_nil_of_isDots (.inr hdots)) (not_mem_of_isDots (.inr hdots))
  have hlength : (e.setOut (Function.update e.ctx.out .path (serializePath path ++ ['/']))).beg.length
      - (e.setOut (Function.update e.ctx.out .path (serializePath path ++ ['/']))).ctx.pos.length =
        segment.length := h.length_eq
  rw [TakesBack, handleDotsInPaths_strict_double hcount, hpop, clearSegment_strict, hlength,
    setOut_path, if_pos hdots]
  cases eraseLast segment.length (serializePath path ++ ['/']) with
  | error fault =>
      constructor
      · rintro ⟨e', heq, -⟩
        cases heq
      · intro heq
        cases heq
  | ok text =>
      constructor
      · rintro ⟨e', heq, hpath⟩
        cases heq
        rw [← hpath, withPath_path]
      · intro heq
        refine ⟨_, rfl, ?_⟩
        rw [Except.ok.injEq] at heq
        rw [withPath_path, heq]

theorem eraseLast_eq_iff {count : ℕ} (hcount : 1 < count) (path : List (List Char)) :
    eraseLast count (serializePath path ++ ['/']) = .ok (serializePath path.dropLast ++ ['/']) ↔
      ∃ front last, path = front ++ [last] ∧ last.length + 1 = count := by
  cases path using List.reverseRecOn with
  | nil =>
      have hshort : ¬count ≤ (serializePath [] ++ ['/']).length := Nat.not_le.mpr hcount
      rw [eraseLast, if_neg hshort]
      constructor
      · intro heq
        cases heq
      · rintro ⟨front, last, heq, -⟩
        exact absurd heq.symm (List.concat_ne_nil last front)
  | append_singleton front last =>
      have hsplit : serializePath (front ++ [last]) ++ ['/'] =
          (serializePath front ++ ['/']) ++ (last ++ ['/']) := by
        rw [serializePath_append]
        simp
      rw [List.dropLast_concat, hsplit]
      constructor
      · intro heq
        refine ⟨front, last, rfl, ?_⟩
        rw [eraseLast] at heq
        split at heq
        · rename_i hle
          have hlength := congrArg List.length (Except.ok.inj heq)
          rw [List.length_take, List.length_append, List.length_append] at hlength
          rw [List.length_append] at hle
          rw [List.length_append, List.length_singleton] at hle hlength
          simp at hle hlength
          omega
        · cases heq
      · rintro ⟨front', last', heq, rfl⟩
        obtain ⟨-, hlast⟩ := List.append_inj' heq rfl
        have hcount : last'.length + 1 = (last ++ ['/']).length := by
          rw [← List.singleton_inj.mp hlast, List.length_append, List.length_singleton]
        rw [hcount, eraseLast_append]

/-- Dots are taken back as they should be, exactly if there is one dot, or the two are as long
as the segment before them with its slash. -/
theorem handleDotsInPaths_strict_iff (h : PathAt path segment rest e) (hdots : IsDots segment) :
    TakesBack path segment (handleDotsInPaths strictUriParsingOptions stringOutput e) ↔
      isSingleDot segment = true ∨
        ∃ front last, path = front ++ [last] ∧ last.length + 1 = segment.length := by
  rcases hdots with hdot | hdots
  · exact iff_of_true (takesBack_single h hdot) (.inl hdot)
  · have hno : ¬isSingleDot segment = true := by
      intro hdot
      rw [not_isDoubleDot_of_isSingleDot hdot] at hdots
      cases hdots
    rw [takesBack_double h hdots, eraseLast_eq_iff (one_lt_length_of_isDoubleDot hdots),
      or_iff_right hno]

theorem handleDotsInPaths_strict_one_letter :
    TakesBack ["a".toList, "b".toList] "..".toList (handleDotsInPaths strictUriParsingOptions
      stringOutput ⟨⟨"..".toList, [], fun _ => "/a/b/..".toList, .start, .specialScheme⟩,
        "..".toList, ([], [])⟩) := by
  have hat : PathAt ["a".toList, "b".toList] "..".toList [] ⟨⟨"..".toList, [],
      fun _ => "/a/b/..".toList, .start, .specialScheme⟩, "..".toList, ([], [])⟩ := ⟨rfl, rfl, rfl⟩
  exact (handleDotsInPaths_strict_iff hat (.inr (by decide))).mpr
    (.inr ⟨["a".toList], "b".toList, rfl, rfl⟩)

/-- The two dots take a slash and a letter too many. -/
theorem not_takesBack_two_letters :
    ¬TakesBack ["a".toList, "bc".toList] "..".toList (handleDotsInPaths strictUriParsingOptions
      stringOutput ⟨⟨"..".toList, [], fun _ => "/a/bc/..".toList, .start, .specialScheme⟩,
        "..".toList, ([], [])⟩) := by
  rintro ⟨e', heq, hpath⟩
  cases heq
  cases hpath

end Dots

end Webpp.Uri
