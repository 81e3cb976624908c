import Mathlib.Data.List.Basic

/-!
# Splitting a string

A splitter cuts its string at the first place of each delimiter in turn, and from the last one on
at each place of that one. Its iterator keeps where the piece starts and finishes; a finish of 0
means that nothing has been read.
-/

namespace Webpp.Text.Splits

variable {α : Type*} [DecidableEq α]

/-- `find(delim)` -/
def find (delim : List α) : List α → Option ℕ
  | [] => if delim = [] then some 0 else none
  | c :: rest => if delim <+: c :: rest then some 0 else (find delim rest).map (· + 1)

/-- `find(delim, pos)` -/
def findFrom (str delim : List α) (pos : ℕ) : Option ℕ :=
  if str.length < pos then none else (find delim (str.drop pos)).map (pos + ·)

/-- `stl::min(len, str.find(delim, pos))` -/
def finishFrom (str delim : List α) (pos : ℕ) : ℕ :=
  match findFrom str delim pos with
  | some finish => min str.length finish
  | none => str.length

/-- A view of a part of a string. -/
structure Piece where
  pos : ℕ
  length : ℕ
  deriving DecidableEq

/-- `substr(pos, count)`, which throws where `pos` is behind the end -/
def substr (str : List α) (pos count : ℕ) : Option Piece :=
  if str.length < pos then none else some ⟨pos, min count (str.length - pos)⟩

/-- `basic_splitter`. A delimiter that is a character is the string of it. -/
structure BasicSplitter (α : Type*) where
  str : List α
  delims : List (List α)
  delims_ne_nil : delims ≠ []

namespace BasicSplitter

variable (S : BasicSplitter α)

theorem delimiterClamp_lt {α : Type*} (S : BasicSplitter α) (index : ℕ) :
    min index (S.delims.length - 1) < S.delims.length := by
  have hpos := List.length_pos_of_ne_nil S.delims_ne_nil
  omega

/-- `on_delimiter(index)`, with the index clamped -/
def onDelimiter {α : Type*} (S : BasicSplitter α) (index : ℕ) : List α :=
  S.delims.get ⟨min index (S.delims.length - 1), S.delimiterClamp_lt index⟩

/-- A splitter with characters for delimiters. -/
def ofChars {α : Type*} (str : List α) (delim : α) (delims : List α) : BasicSplitter α where
  str := str
  delims := (delim :: delims).map fun d => [d]
  delims_ne_nil := by simp

/-- The characters of a piece. -/
def text {α : Type*} (S : BasicSplitter α) (piece : Piece) : List α :=
  (S.str.drop piece.pos).take piece.length

end BasicSplitter

/-- `splitter_iterator`, where `spltr` is whether the pointer is not null. -/
structure SplitterIterator where
  spltr : Bool
  startPos : ℕ
  finishPos : ℕ
  delimIndex : ℕ
  deriving DecidableEq

namespace SplitterIterator

/-- The default constructor. -/
def default : SplitterIterator := ⟨false, 0, 0, 0⟩

/-- `operator==`, for iterators of one splitter -/
def equals (it other : SplitterIterator) : Bool :=
  if !it.spltr && !other.spltr then true
  else
    it.startPos == other.startPos && it.finishPos == other.finishPos && it.spltr == other.spltr &&
      it.delimIndex == other.delimIndex

/-- `operator++` -/
def next (S : BasicSplitter α) (it : SplitterIterator) : Option SplitterIterator :=
  if !it.spltr then none
  else if it.finishPos = S.str.length then some { it with spltr := false }
  else
    let delim := S.onDelimiter it.delimIndex
    let startPos := if it.finishPos ≠ 0 then it.finishPos + delim.length else it.finishPos
    some ⟨true, startPos, finishFrom S.str delim startPos, it.delimIndex + 1⟩

/-- `operator*` -/
def deref (S : BasicSplitter α) (it : SplitterIterator) : Option Piece :=
  if !it.spltr then none
  else substr S.str it.startPos (it.finishPos - it.startPos)

end SplitterIterator

namespace BasicSplitter

open SplitterIterator

variable (S : BasicSplitter α)

/-- `begin()` -/
def beginIter : Option SplitterIterator := next S ⟨true, 0, 0, 0⟩

/-- `end()` -/
def endIter : SplitterIterator := SplitterIterator.default

/-- The pieces that are read from an iterator on, in at most `n` rounds. -/
def collect : ℕ → SplitterIterator → Option (List Piece)
  | 0, _ => none
  | n + 1, it =>
      if it.equals endIter then some []
      else do
        let piece ← deref S it
        let it ← next S it
        let pieces ← collect n it
        return piece :: pieces

/-- `split`, with at most `n` rounds -/
def split (n : ℕ) : Option (List Piece) := do
  let it ← S.beginIter
  S.collect n it

/-! ## The pieces of a string -/

/-- The place of the `i`-th delimiter behind `pos`, or the end. -/
def finish (i pos : ℕ) : ℕ := finishFrom S.str (S.onDelimiter i) pos

/-- The piece in front of that place. -/
def pieceTo (i pos : ℕ) : Piece := ⟨pos, S.finish i pos - pos⟩

/-- The `k`-th piece behind `pos`, where the delimiters from the `i`-th one on are looked for. -/
def pieceFrom : ℕ → ℕ → ℕ → Option Piece
  | 0, i, pos => some (S.pieceTo i pos)
  | k + 1, i, pos =>
      (findFrom S.str (S.onDelimiter i) pos).bind fun finish =>
        pieceFrom k (i + 1) (finish + (S.onDelimiter i).length)

/-- The pieces of the string, cut at the first place of each delimiter in turn. -/
def pieceAt (k : ℕ) : Option Piece := S.pieceFrom k 0 0

/-- The splitting ends, with the texts of the pieces. -/
def YieldsPieces : Prop :=
  ∃ n pieces, S.split n = some pieces ∧
    ∀ k : ℕ, (pieces[k]?).map S.text = (S.pieceAt k).map S.text

end BasicSplitter

/-! ## Searches -/

section Searches

variable {str delim : List α} {pos i : ℕ}

theorem find_eq_some_iff :
    find delim str = some i ↔ i ≤ str.length ∧ delim <+: str.drop i ∧
      ∀ j < i, ¬ delim <+: str.drop j := by
  induction str generalizing i with
  | nil =>
      rw [find]
      split_ifs with hdelim
      · subst hdelim
        constructor
        · rintro ⟨⟩
          simp
        · rintro ⟨hle, -, -⟩
          rw [Nat.le_zero.1 hle]
      · refine iff_of_false (by simp) ?_
        rintro ⟨-, hprefix, -⟩
        rw [List.drop_nil, List.prefix_nil] at hprefix
        exact hdelim hprefix
  | cons c rest ih =>
      rw [find]
      split_ifs with hprefix
      · constructor
        · rintro ⟨⟩
          exact ⟨Nat.zero_le _, hprefix, fun j hj => absurd hj (Nat.not_lt_zero j)⟩
        · rintro ⟨-, -, hfirst⟩
          rcases Nat.eq_zero_or_pos i with rfl | hpos
          · rfl
          · exact absurd hprefix (hfirst 0 hpos)
      · cases i with
        | zero =>
            refine iff_of_false (by simp) ?_
            rintro ⟨-, hzero, -⟩
            exact hprefix hzero
        | succ i =>
            have hmap : (find delim rest).map (· + 1) = some (i + 1) ↔
                find delim rest = some i := by
              simp
            rw [hmap, ih, List.length_cons, List.drop_succ_cons]
            refine and_congr (by omega) (and_congr_right fun _ => ?_)
            constructor
            · intro hfirst j hj
              cases j with
              | zero => exact hprefix
              | succ j => exact hfirst j (Nat.lt_of_succ_lt_succ hj)
            · intro hfirst j hj
              exact hfirst (j + 1) (Nat.succ_lt_succ hj)

theorem findFrom_eq_some_iff {finish : ℕ} :
    findFrom str delim pos = some finish ↔ pos ≤ finish ∧ finish ≤ str.length ∧
      delim <+: str.drop finish ∧ ∀ j, pos ≤ j → j < finish → ¬ delim <+: str.drop j := by
  rw [findFrom]
  split_ifs with hlt
  · refine iff_of_false (by simp) ?_
    rintro ⟨hle, hle', -⟩
    omega
  · rw [Option.map_eq_some_iff]
    constructor
    · rintro ⟨i, hi, rfl⟩
      obtain ⟨hle, hprefix, hfirst⟩ := find_eq_some_iff.1 hi
      rw [List.length_drop] at hle
      rw [List.drop_drop] at hprefix
      refine ⟨Nat.le_add_right _ _, by omega, hprefix, fun j hj hji => ?_⟩
      have hnot := hfirst (j - pos) (by omega)
      rwa [List.drop_drop, Nat.add_sub_cancel' hj] at hnot
    · rintro ⟨hle, hle', hprefix, hfirst⟩
      refine ⟨finish - pos, find_eq_some_iff.2 ⟨?_, ?_, fun j hj => ?_⟩, Nat.add_sub_cancel' hle⟩
      · rw [List.length_drop]
        omega
      · rwa [List.drop_drop, Nat.add_sub_cancel' hle]
      · rw [List.drop_drop]
        exact hfirst (pos + j) (Nat.le_add_right _ _) (by omega)

theorem add_length_le_of_findFrom {finish : ℕ} (h : findFrom str delim pos = some finish) :
    finish + delim.length ≤ str.length := by
  obtain ⟨-, hle, hprefix, -⟩ := findFrom_eq_some_iff.1 h
  have hlength := hprefix.length_le
  rw [List.length_drop] at hlength
  omega

theorem finishFrom_of_some {finish : ℕ} (h : findFrom str delim pos = some finish) :
    finishFrom str delim pos = finish := by
  rw [finishFrom, h]
  exact Nat.min_eq_right (findFrom_eq_some_iff.1 h).2.1

theorem finishFrom_of_none (h : findFrom str delim pos = none) :
    finishFrom str delim pos = str.length := by
  rw [finishFrom, h]

theorem finishFrom_le (str delim : List α) (pos : ℕ) : finishFrom str delim pos ≤ str.length := by
  cases h : findFrom str delim pos with
  | none => exact Nat.le_of_eq (finishFrom_of_none h)
  | some finish =>
      rw [finishFrom_of_some h]
      exact (findFrom_eq_some_iff.1 h).2.1

theorem le_finishFrom (h : pos ≤ str.length) : pos ≤ finishFrom str delim pos := by
  cases hfind : findFrom str delim pos with
  | none => rwa [finishFrom_of_none hfind]
  | some finish =>
      rw [finishFrom_of_some hfind]
      exact (findFrom_eq_some_iff.1 hfind).1

/-- A delimiter that is not empty is found if the finish is in front of the end. -/
theorem findFrom_of_finishFrom_lt (h : finishFrom str delim pos < str.length) :
    findFrom str delim pos = some (finishFrom str delim pos) := by
  cases hfind : findFrom str delim pos with
  | none =>
      rw [finishFrom_of_none hfind] at h
      exact absurd h (Nat.lt_irrefl _)
  | some finish => rw [finishFrom_of_some hfind]

theorem findFrom_of_finishFrom_eq (hdelim : delim ≠ [])
    (h : finishFrom str delim pos = str.length) :
    findFrom str delim pos = none := by
  cases hfind : findFrom str delim pos with
  | none => rfl
  | some finish =>
      have hle := add_length_le_of_findFrom hfind
      have hpos := List.length_pos_of_ne_nil hdelim
      rw [finishFrom_of_some hfind] at h
      omega

end Searches

/-! ## The iteration -/

namespace BasicSplitter

variable {S : BasicSplitter α} {n i pos : ℕ} {pieces : List Piece}

theorem finish_le (S : BasicSplitter α) (i pos : ℕ) : S.finish i pos ≤ S.str.length :=
  finishFrom_le _ _ _

theorem le_finish (i : ℕ) (h : pos ≤ S.str.length) : pos ≤ S.finish i pos := le_finishFrom h

theorem findFrom_of_finish_lt (h : S.finish i pos < S.str.length) :
    findFrom S.str (S.onDelimiter i) pos = some (S.finish i pos) := findFrom_of_finishFrom_lt h

theorem finish_of_some {place : ℕ} (h : findFrom S.str (S.onDelimiter i) pos = some place) :
    S.finish i pos = place := finishFrom_of_some h

/-- The iterator behind the search for the `i`-th delimiter. -/
def iterAt (S : BasicSplitter α) (i pos : ℕ) : SplitterIterator :=
  ⟨true, pos, S.finish i pos, i + 1⟩

theorem beginIter_eq (h : S.str ≠ []) : S.beginIter = some (S.iterAt 0 0) := by
  have hne : (0 : ℕ) ≠ S.str.length := Nat.ne_of_lt (List.length_pos_of_ne_nil h)
  simp [beginIter, SplitterIterator.next, hne, iterAt, finish]

theorem split_of_nil (h : S.str = []) (n : ℕ) : S.split (n + 1) = some [] := by
  simp [split, beginIter, SplitterIterator.next, h, collect, SplitterIterator.equals, endIter,
    SplitterIterator.default]

/-- A round at an iterator that is not at the end. -/
theorem collect_succ (hpos : pos ≤ S.str.length) :
    S.collect (n + 1) (S.iterAt i pos) =
      ((SplitterIterator.next S (S.iterAt i pos)).bind (S.collect n)).map
        (S.pieceTo i pos :: ·) := by
  have hle := S.finish_le i pos
  have hmin : min (S.finish i pos - pos) (S.str.length - pos) =
      S.finish i pos - pos := by omega
  have hderef : SplitterIterator.deref S (S.iterAt i pos) =
      some (S.pieceTo i pos) := by
    simp [SplitterIterator.deref, iterAt, pieceTo, substr, Nat.not_lt.2 hpos, hmin]
  have hend : (S.iterAt i pos).equals endIter = false := by
    simp [SplitterIterator.equals, iterAt, endIter, SplitterIterator.default]
  rw [collect, hend, if_neg Bool.false_ne_true, hderef]
  cases SplitterIterator.next S (S.iterAt i pos) with
  | none => rfl
  | some it => cases hrest : S.collect n it <;> simp [hrest]

theorem collect_ended (it : SplitterIterator) (h : it.spltr = false) (n : ℕ) :
    S.collect (n + 1) it = some [] := by
  rw [collect, if_pos]
  simp [SplitterIterator.equals, h, endIter, SplitterIterator.default]

theorem next_iterAt (S : BasicSplitter α) (i pos : ℕ) :
    SplitterIterator.next S (S.iterAt i pos) =
      if S.finish i pos = S.str.length then some { S.iterAt i pos with spltr := false }
      else some (S.iterAt (i + 1) (if S.finish i pos ≠ 0 then
        S.finish i pos + (S.onDelimiter (i + 1)).length else S.finish i pos)) := rfl

theorem next_of_finish_eq (h : S.finish i pos = S.str.length) :
    SplitterIterator.next S (S.iterAt i pos) = some { S.iterAt i pos with spltr := false } := by
  rw [next_iterAt, if_pos h]

theorem next_of_finish_ne_zero (hlt : S.finish i pos < S.str.length) (h : S.finish i pos ≠ 0) :
    SplitterIterator.next S (S.iterAt i pos) =
      some (S.iterAt (i + 1) (S.finish i pos + (S.onDelimiter (i + 1)).length)) := by
  rw [next_iterAt, if_neg (Nat.ne_of_lt hlt), if_pos h]

/-- A delimiter at the beginning is not passed. -/
theorem next_of_finish_eq_zero (hlt : 0 < S.str.length) (h : S.finish i pos = 0) :
    SplitterIterator.next S (S.iterAt i pos) = some (S.iterAt (i + 1) 0) := by
  rw [next_iterAt, if_neg (by omega), if_neg (not_not.2 h), h]

end BasicSplitter

end Webpp.Text.Splits
