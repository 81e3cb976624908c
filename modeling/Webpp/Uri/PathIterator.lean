import Mathlib.Data.List.TakeWhile
import Webpp.Uri.Context
import Webpp.Uri.Encoding

/-!
# Path iterators

A path iterator goes through the segments of a path and decodes each one. `next` skips slashes by
calling itself, and looks for the end each time; `peek` skips them in a loop of its own, which
looks for the end only before it. Where nothing but slashes is left, `peek` runs out of the path.
-/

namespace Webpp.Uri.Encoding

variable {it it' : PathIterator} {path : List UInt8}

def slash : UInt8 := '/'.toUInt8

def pcharNotPctEncoded (c : UInt8) : Bool :=
  (decide ('A'.toUInt8 ≤ c) && decide (c ≤ 'Z'.toUInt8)) ||
    (decide ('a'.toUInt8 ≤ c) && decide (c ≤ 'z'.toUInt8)) ||
    (decide ('0'.toUInt8 ≤ c) && decide (c ≤ '9'.toUInt8)) ||
    (['-', '.', '_', '~', '!', '$', '&', '\'', '(', ')', '*', '+', ',', ';', '=', ':',
      '@'].map Char.toUInt8).contains c

/-- `decode_uri_component` with the characters that are allowed in segments. -/
def decodeSegment (text : List UInt8) : Decoded :=
  decodeUriComponent .skipChars pcharNotPctEncoded text

/-- `basic_path_iterator`: the last segment, and the path behind the position. -/
structure PathIterator where
  seg : List UInt8
  pos : List UInt8
  deriving DecidableEq, Repr

/-- `stl::find(pos, fin, '/')`. -/
def findSlash (pos : List UInt8) : List UInt8 := pos.dropWhile (· != slash)

/-- The text from the position to `slash_start`. -/
def upToSlash (pos : List UInt8) : List UInt8 := pos.takeWhile (· != slash)

namespace PathIterator

/-- `next`, from the position `pos`. -/
def nextFrom (seg : List UInt8) : List UInt8 → Bool × PathIterator
  | [] => (false, ⟨seg, []⟩)
  | c :: pos =>
      if findSlash (c :: pos) = c :: pos then nextFrom seg pos
      else
        let decoded := decodeSegment (upToSlash (c :: pos))
        if decoded.valid then (true, ⟨decoded.output, (findSlash (c :: pos)).tail⟩)
        else (false, ⟨decoded.output, c :: pos⟩)

def next (it : PathIterator) : Bool × PathIterator := nextFrom it.seg it.pos

/-- The loop of `peek` and what follows it. At the end of the path nothing is found, and the
position is moved beyond it. -/
def peekFrom : List UInt8 → Run (Option (List UInt8))
  | [] => .error .movePastEnd
  | c :: pit =>
      if findSlash (c :: pit) = c :: pit then peekFrom pit
      else .ok (decodeSegment (upToSlash (c :: pit))).result

def peek (it : PathIterator) : Run (Option (List UInt8)) :=
  if it.pos = [] then .ok none else peekFrom it.pos

/-- The iterators that calls of `next` lead to. -/
inductive Reachable (start : PathIterator) : PathIterator → Prop where
  | refl : Reachable start start
  | next {it : PathIterator} (h : Reachable start it) : Reachable start it.next.2

/-- `peek` has a result, the segment that `next` would store. -/
def PeeksNext (it : PathIterator) : Prop :=
  it.peek = .ok (if it.next.1 then some it.next.2.seg else none)

/-- Calls of `next` until it returns false store these segments. -/
inductive Visits : PathIterator → List (List UInt8) → Prop where
  | stop {it : PathIterator} (h : it.next.1 = false) : Visits it []
  | next {it : PathIterator} {segs : List (List UInt8)} (h : it.next.1 = true)
      (hrest : Visits it.next.2 segs) : Visits it (it.next.2.seg :: segs)

end PathIterator

/-- The segments of a path that are not empty. -/
def nonEmptySegments (path : List UInt8) : List (List UInt8) :=
  (path.splitOn slash).filter (· ≠ [])

/-- What the segments stand for, up to the first one that cannot be decoded. -/
def decodedSegments (path : List UInt8) : List (List UInt8) :=
  (((nonEmptySegments path).map decodeSegment).takeWhile Decoded.valid).map Decoded.output

/-- The two functions go through a path alike, and visit its segments. -/
structure IteratesRight (path : List UInt8) : Prop where
  peek : ∀ it, PathIterator.Reachable ⟨[], path⟩ it → it.PeeksNext
  visits : PathIterator.Visits ⟨[], path⟩ (decodedSegments path)

/-- All segments of the path are decoded, and it ends with a slash that no segment is before. -/
def EndsInSlashes (path : List UInt8) : Prop :=
  (∀ seg ∈ nonEmptySegments path, (decodeSegment seg).valid = true) ∧
    (path = [slash] ∨ [slash, slash] <:+ path)

/-! ## The beginning of a path -/

theorem path_induction {P : List UInt8 → Prop} (nil : P [])
    (slash_cons : ∀ path, P path → P (slash :: path))
    (segment : ∀ text, text ≠ [] → slash ∉ text → P text)
    (segment_slash : ∀ text path, text ≠ [] → slash ∉ text → P path → P (text ++ slash :: path))
    (path : List UInt8) : P path := by
  induction hn : path.length using Nat.strong_induction_on generalizing path with
  | _ n ih =>
      by_cases hslash : slash ∈ path
      · obtain ⟨text, rest, rfl, htext⟩ := List.eq_append_cons_of_mem hslash
        rw [List.length_append, List.length_cons] at hn
        have hrest : P rest := ih rest.length (by omega) rest rfl
        cases text with
        | nil => exact slash_cons rest hrest
        | cons c text => exact segment_slash _ rest (List.cons_ne_nil c text) htext hrest
      · by_cases hempty : path = []
        · rw [hempty]
          exact nil
        · exact segment path hempty hslash

section Beginnings

variable {text path : List UInt8}

theorem bne_slash_of_not_mem (h : slash ∉ text) : ∀ c ∈ text, (c != slash) = true :=
  fun _ hc => bne_iff_ne.mpr fun heq => h (heq ▸ hc)

theorem upToSlash_append (h : slash ∉ text) : upToSlash (text ++ slash :: path) = text := by
  rw [upToSlash, List.takeWhile_append_of_pos (bne_slash_of_not_mem h),
    List.takeWhile_cons_of_neg (by simp), List.append_nil]

theorem findSlash_append (h : slash ∉ text) :
    findSlash (text ++ slash :: path) = slash :: path := by
  rw [findSlash, List.dropWhile_append_of_pos (bne_slash_of_not_mem h),
    List.dropWhile_cons_of_neg (by simp)]

theorem upToSlash_of_not_mem (h : slash ∉ text) : upToSlash text = text :=
  List.takeWhile_eq_self_iff.mpr (bne_slash_of_not_mem h)

theorem findSlash_of_not_mem (h : slash ∉ text) : findSlash text = [] :=
  List.dropWhile_eq_nil_iff.mpr (bne_slash_of_not_mem h)

theorem findSlash_cons (path : List UInt8) : findSlash (slash :: path) = slash :: path :=
  List.dropWhile_cons_of_neg (by simp)

theorem nonEmptySegments_slash (path : List UInt8) :
    nonEmptySegments (slash :: path) = nonEmptySegments path := by
  have h := List.splitOn_append_cons_self ([] : List UInt8) path (a := slash)
  rw [List.nil_append] at h
  rw [nonEmptySegments, h, List.splitOn_nil]
  rfl

theorem nonEmptySegments_segment (hempty : text ≠ []) (h : slash ∉ text) :
    nonEmptySegments text = [text] := by
  rw [nonEmptySegments, List.splitOn_eq_singleton h]
  exact List.filter_cons_of_pos (decide_eq_true hempty)

theorem nonEmptySegments_append (hempty : text ≠ []) (h : slash ∉ text) (path : List UInt8) :
    nonEmptySegments (text ++ slash :: path) = text :: nonEmptySegments path := by
  rw [nonEmptySegments, List.splitOn_append_cons_self, List.splitOn_eq_singleton h,
    List.singleton_append]
  exact List.filter_cons_of_pos (decide_eq_true hempty)

end Beginnings

/-! ## The two functions at the beginning of a path -/

namespace PathIterator

theorem next_slash (seg path : List UInt8) :
    (PathIterator.mk seg (slash :: path)).next = (PathIterator.mk seg path).next := by
  rw [next, next, nextFrom, if_pos (findSlash_cons path)]

theorem peek_slash (seg : List UInt8) (h : path ≠ []) :
    (PathIterator.mk seg (slash :: path)).peek = (PathIterator.mk seg path).peek := by
  rw [peek, if_neg (List.cons_ne_nil slash path), peekFrom, if_pos (findSlash_cons path), peek,
    if_neg h]

section Segment

variable {path text rest : List UInt8}

theorem findSlash_ne (hempty : text ≠ []) (hup : upToSlash path = text) : findSlash path ≠ path := by
  intro hfind
  have hsplit : upToSlash path ++ findSlash path = path := List.takeWhile_append_dropWhile
  rw [hfind, hup] at hsplit
  have hlength := congrArg List.length hsplit
  rw [List.length_append] at hlength
  exact hempty (List.length_eq_zero_iff.mp (by omega))

theorem next_segment (hempty : text ≠ []) (hup : upToSlash path = text)
    (hfind : findSlash path = rest) (seg : List UInt8) :
    (PathIterator.mk seg path).next =
      if (decodeSegment text).valid then (true, ⟨(decodeSegment text).output, rest.tail⟩)
      else (false, ⟨(decodeSegment text).output, path⟩) := by
  have hne := findSlash_ne hempty hup
  cases path with
  | nil => exact (hempty hup.symm).elim
  | cons c path => rw [next, nextFrom, if_neg hne, hup, hfind]

theorem peek_segment (hempty : text ≠ []) (hup : upToSlash path = text) (seg : List UInt8) :
    (PathIterator.mk seg path).peek = .ok (decodeSegment text).result := by
  have hne := findSlash_ne hempty hup
  cases path with
  | nil => exact (hempty hup.symm).elim
  | cons c path => rw [peek, if_neg (List.cons_ne_nil c path), peekFrom, if_neg hne, hup]

theorem peeksNext_segment (hempty : text ≠ []) (hup : upToSlash path = text) (seg : List UInt8) :
    (PathIterator.mk seg path).PeeksNext := by
  rw [PeeksNext, peek_segment hempty hup, next_segment hempty hup rfl, Decoded.result]
  cases (decodeSegment text).valid with
  | true => rfl
  | false => rfl

end Segment

/-! ## All iterators that are reached -/

/-- At all iterators that are reached from this one, `peek` says what `next` does. -/
def AllPeekNext (it : PathIterator) : Prop := ∀ it', Reachable it it' → it'.PeeksNext

theorem Reachable.head (h : Reachable it it') :
    it' = it ∨ Reachable it.next.2 it' := by
  induction h with
  | refl => exact .inl rfl
  | next _ ih =>
      rcases ih with rfl | ih
      · exact .inr .refl
      · exact .inr ih.next

theorem Reachable.of_next (h : Reachable it.next.2 it') :
    Reachable it it' := by
  induction h with
  | refl => exact Reachable.refl.next
  | next _ ih => exact ih.next

theorem allPeekNext_iff (it : PathIterator) :
    it.AllPeekNext ↔ it.PeeksNext ∧ it.next.2.AllPeekNext := by
  constructor
  · exact fun h => ⟨h it .refl, fun it' hreach => h it' hreach.of_next⟩
  · rintro ⟨hit, hnext⟩ it' hreach
    rcases hreach.head with rfl | hreach
    · exact hit
    · exact hnext it' hreach

theorem allPeekNext_of_fixed {it : PathIterator} (h : it.next.2 = it) (hit : it.PeeksNext) :
    it.AllPeekNext := by
  intro it' hreach
  have hsame : it' = it := by
    induction hreach with
    | refl => rfl
    | next _ ih => rw [ih, h]
  rw [hsame]
  exact hit

theorem allPeekNext_nil (seg : List UInt8) : (PathIterator.mk seg []).AllPeekNext :=
  allPeekNext_of_fixed rfl rfl

theorem allPeekNext_slash (seg : List UInt8) (h : path ≠ []) :
    (PathIterator.mk seg (slash :: path)).AllPeekNext ↔ (PathIterator.mk seg path).AllPeekNext := by
  rw [allPeekNext_iff ⟨seg, slash :: path⟩, allPeekNext_iff ⟨seg, path⟩, PeeksNext, PeeksNext,
    peek_slash seg h, next_slash]

theorem allPeekNext_undecoded {path text : List UInt8} (hempty : text ≠ [])
    (hup : upToSlash path = text) (hvalid : (decodeSegment text).valid = false)
    (seg : List UInt8) : (PathIterator.mk seg path).AllPeekNext := by
  have hnext : ∀ seg : List UInt8, (PathIterator.mk seg path).next.2 =
      ⟨(decodeSegment text).output, path⟩ := by
    intro seg
    rw [next_segment hempty hup rfl, hvalid]
    rfl
  rw [allPeekNext_iff, hnext]
  exact ⟨peeksNext_segment hempty hup seg,
    allPeekNext_of_fixed (hnext _) (peeksNext_segment hempty hup _)⟩

theorem allPeekNext_decoded {path text rest : List UInt8} (hempty : text ≠ [])
    (hup : upToSlash path = text) (hfind : findSlash path = rest)
    (hvalid : (decodeSegment text).valid = true) (seg : List UInt8) :
    (PathIterator.mk seg path).AllPeekNext ↔
      (PathIterator.mk (decodeSegment text).output rest.tail).AllPeekNext := by
  rw [allPeekNext_iff, and_iff_right (peeksNext_segment hempty hup seg),
    next_segment hempty hup hfind, if_pos hvalid]

end PathIterator

/-! ## Slashes at the end -/

theorem not_endsInSlashes_nil : ¬ EndsInSlashes [] := by
  rintro ⟨-, heq | hsuffix⟩
  · cases heq
  · exact absurd hsuffix (by decide)

theorem suffix_slash_iff (path : List UInt8) :
    [slash, slash] <:+ slash :: path ↔ path = [slash] ∨ [slash, slash] <:+ path := by
  rw [List.suffix_cons_iff, List.cons.injEq, and_iff_right rfl, @eq_comm _ [slash] path]

theorem suffix_append_iff {text : List UInt8} (h : slash ∉ text) (path : List UInt8) :
    [slash, slash] <:+ text ++ path ↔ [slash, slash] <:+ path := by
  induction text with
  | nil => exact Iff.rfl
  | cons c text ih =>
      obtain ⟨hc, htext⟩ := List.ne_and_not_mem_of_not_mem_cons h
      rw [List.cons_append, List.suffix_cons_iff, ih htext, List.cons.injEq]
      exact or_iff_right fun heq => hc heq.1

theorem endsInSlashes_slash (h : path ≠ []) :
    EndsInSlashes (slash :: path) ↔ EndsInSlashes path := by
  rw [EndsInSlashes, EndsInSlashes, nonEmptySegments_slash, suffix_slash_iff]
  refine and_congr_right fun _ => or_iff_right fun heq => ?_
  exact h (List.cons.inj heq).2

theorem not_endsInSlashes_segment {text : List UInt8} (h : slash ∉ text) :
    ¬ EndsInSlashes text := by
  rintro ⟨-, rfl | hsuffix⟩
  · exact h List.mem_cons_self
  · exact h (hsuffix.subset List.mem_cons_self)

theorem endsInSlashes_append {text path : List UInt8} (hempty : text ≠ []) (h : slash ∉ text) :
    EndsInSlashes (text ++ slash :: path) ↔
      (decodeSegment text).valid = true ∧ EndsInSlashes path := by
  have hne : text ++ slash :: path ≠ [slash] := by
    intro heq
    have hlength := congrArg List.length heq
    rw [List.length_append, List.length_cons, List.length_singleton] at hlength
    exact hempty (List.length_eq_zero_iff.mp (by omega))
  rw [EndsInSlashes, EndsInSlashes, nonEmptySegments_append hempty h, List.forall_mem_cons,
    suffix_append_iff h, suffix_slash_iff, or_iff_right hne, and_assoc]

open PathIterator

theorem allPeekNext_iff_slashes (path : List UInt8) (seg : List UInt8) :
    (PathIterator.mk seg path).AllPeekNext ↔ ¬ EndsInSlashes path := by
  induction path using path_induction generalizing seg with
  | nil => exact iff_of_true (allPeekNext_nil seg) not_endsInSlashes_nil
  | slash_cons path ih =>
      by_cases hempty : path = []
      · subst hempty
        refine iff_of_false ?_ ?_
        · intro h
          cases h _ .refl
        · exact not_not.mpr ⟨fun _ h => absurd h List.not_mem_nil, .inl rfl⟩
      · rw [allPeekNext_slash seg hempty, endsInSlashes_slash hempty]
        exact ih seg
  | segment text hempty htext =>
      refine iff_of_true ?_ (not_endsInSlashes_segment htext)
      cases hvalid : (decodeSegment text).valid with
      | true =>
          rw [allPeekNext_decoded hempty (upToSlash_of_not_mem htext) (findSlash_of_not_mem htext)
            hvalid]
          exact allPeekNext_nil _
      | false => exact allPeekNext_undecoded hempty (upToSlash_of_not_mem htext) hvalid seg
  | segment_slash text path hempty htext ih =>
      rw [endsInSlashes_append hempty htext]
      cases hvalid : (decodeSegment text).valid with
      | true =>
          rw [allPeekNext_decoded hempty (upToSlash_append htext) (findSlash_append htext) hvalid,
            List.tail_cons, ih, and_iff_right rfl]
      | false =>
          refine iff_of_true ?_ fun h => nomatch h.1
          exact allPeekNext_undecoded hempty (upToSlash_append htext) hvalid seg

theorem PathIterator.Visits.of_next_eq {segs : List (List UInt8)}
    (h : Visits it segs) (hnext : it'.next = it.next) : Visits it' segs := by
  cases h with
  | stop hstop => exact .stop (hnext ▸ hstop)
  | next hgo hrest =>
      rw [← hnext] at hgo hrest ⊢
      exact .next hgo hrest

theorem visits_segment {path text rest : List UInt8} (hempty : text ≠ [])
    (hup : upToSlash path = text) (hfind : findSlash path = rest) (seg : List UInt8)
    {segs : List (List UInt8)} (hrest : ∀ seg, Visits ⟨seg, rest.tail⟩
      (((segs.map decodeSegment).takeWhile Decoded.valid).map Decoded.output)) :
    Visits ⟨seg, path⟩
      ((((text :: segs).map decodeSegment).takeWhile Decoded.valid).map Decoded.output) := by
  have hnext := next_segment hempty hup hfind seg
  rw [List.map_cons]
  cases hvalid : (decodeSegment text).valid with
  | true =>
      rw [if_pos hvalid] at hnext
      rw [List.takeWhile_cons_of_pos hvalid, List.map_cons]
      have hgo : (PathIterator.mk seg path).next.1 = true := by rw [hnext]
      have hvisits := hrest (decodeSegment text).output
      have hnext2 : (PathIterator.mk seg path).next.2 =
          ⟨(decodeSegment text).output, rest.tail⟩ := by rw [hnext]
      rw [← hnext2] at hvisits
      have hall := Visits.next hgo hvisits
      rw [hnext2] at hall
      exact hall
  | false =>
      rw [List.takeWhile_cons_of_neg (by rw [hvalid]; exact Bool.false_ne_true), List.map_nil]
      refine .stop ?_
      rw [hnext, hvalid]
      rfl

/-- Calls of `next` visit the segments up to the first one that is not decoded. -/
theorem visits_decodedSegments (path : List UInt8) (seg : List UInt8) :
    Visits ⟨seg, path⟩ (decodedSegments path) := by
  induction path using path_induction generalizing seg with
  | nil => exact .stop rfl
  | slash_cons path ih =>
      rw [decodedSegments, nonEmptySegments_slash]
      exact (ih seg).of_next_eq (next_slash seg path)
  | segment text hempty htext =>
      rw [decodedSegments, nonEmptySegments_segment hempty htext]
      exact visits_segment hempty (upToSlash_of_not_mem htext) (findSlash_of_not_mem htext) seg
        fun _ => .stop rfl
  | segment_slash text path hempty htext ih =>
      rw [decodedSegments, nonEmptySegments_append hempty htext]
      exact visits_segment hempty (upToSlash_append htext) (findSlash_append htext) seg ih

theorem iteratesRight_iff (path : List UInt8) : IteratesRight path ↔ ¬ EndsInSlashes path := by
  rw [← allPeekNext_iff_slashes path []]
  exact ⟨fun h => h.peek, fun h => ⟨h, visits_decodedSegments path []⟩⟩

/-- At the end of `a//` there is nothing to peek at. -/
theorem not_iteratesRight_slashes : ¬ ∀ path : List UInt8, IteratesRight path := by
  intro h
  have hpeek := (h [slash]).peek _ .refl
  revert hpeek
  rw [PeeksNext]
  decide

end Webpp.Uri.Encoding
