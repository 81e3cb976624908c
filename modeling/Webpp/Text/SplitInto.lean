import Webpp.Text.Splits

/-!
# Splitting into an array

`split_array` finds the pieces on its own. It passes the delimiter it has found, also at the end of
the string, where the next `substr` throws; the iterator passes as many characters as the next
delimiter has. The two agree where each delimiter is found and is as long as the next one.
-/

namespace Webpp.Text.Splits.BasicSplitter

open SplitterIterator

variable {α : Type*} [DecidableEq α] (S : BasicSplitter α)

/-- The calls of `pos_finder` for `n` elements, from `Index` and `last_pos` on. -/
def splitArrayFrom : ℕ → ℕ → ℕ → Option (List Piece)
  | 0, _, _ => some []
  | n + 1, index, lastPos => do
      let delim := S.onDelimiter index
      let pos := finishFrom S.str delim lastPos
      let ret ← substr S.str lastPos (pos - lastPos)
      let rest ← splitArrayFrom n (index + 1) (pos + delim.length)
      return ret :: rest

/-- `split_into<n>`, which terminates the program if `substr` throws -/
def splitInto (n : ℕ) : Option (List Piece) := S.splitArrayFrom n 0 0

/-- The first `n` pieces from an iterator on. -/
def visit : ℕ → SplitterIterator → Option (List Piece)
  | 0, _ => some []
  | n + 1, it =>
      if it.equals endIter then some []
      else do
        let piece ← deref S it
        let it ← next S it
        let pieces ← visit n it
        return piece :: pieces

/-- The first `n` pieces of the iteration. -/
def visited (n : ℕ) : Option (List Piece) := do
  let it ← S.beginIter
  S.visit n it

/-- The element of the array is the piece, or an empty view where there is no piece. -/
def Holding : Option Piece → Piece → Prop
  | some piece, element => element = piece
  | none, element => element.length = 0

/-- The array has the pieces in order, and empty views behind them. -/
def Filled (n : ℕ) (pieces : ℕ → Option Piece) (arr : List Piece) : Prop :=
  arr.length = n ∧ ∀ (k : ℕ) (element : Piece), arr[k]? = some element → Holding (pieces k) element

/-- The array is filled with the pieces of the string, which are those of the iteration. -/
def SplitsInto (n : ℕ) : Prop :=
  ∃ arr, S.splitInto n = some arr ∧ Filled n S.pieceAt arr ∧
    ∃ pieces, S.visited n = some pieces ∧ Filled n (fun k => pieces[k]?) arr

/-- The place of the `k`-th delimiter behind `pos`, from the `i`-th delimiter on. -/
def delimFrom : ℕ → ℕ → ℕ → Option ℕ
  | 0, i, pos => findFrom S.str (S.onDelimiter i) pos
  | k + 1, i, pos =>
      (findFrom S.str (S.onDelimiter i) pos).bind fun place =>
        delimFrom k (i + 1) (place + (S.onDelimiter i).length)

/-- The place of the `k`-th delimiter in the string. -/
def delimAt (k : ℕ) : Option ℕ := S.delimFrom k 0 0

/-- The delimiter at a place in front of the end is as long as the next one, or empty at the
beginning. -/
def EvenAt (k place : ℕ) : Prop :=
  place < S.str.length →
    if place = 0 then (S.onDelimiter k).length = 0
    else (S.onDelimiter (k + 1)).length = (S.onDelimiter k).length

/-- All but the last of the `n` pieces end at a delimiter that is as long as the next one. -/
def SplitsEvenly (n : ℕ) : Prop :=
  ∀ k, k + 1 < n → ∃ place, S.delimAt k = some place ∧ S.EvenAt k place

/-! ## Arrays -/

section Arrays

variable {n : ℕ} {pieces : ℕ → Option Piece} {element : Piece} {arr : List Piece}

theorem filled_nil (pieces : ℕ → Option Piece) : Filled 0 pieces [] :=
  ⟨rfl, fun k element hk => by cases hk⟩

theorem filled_cons : Filled (n + 1) pieces (element :: arr) ↔
    Holding (pieces 0) element ∧ Filled n (fun k => pieces (k + 1)) arr := by
  rw [Filled, Filled, List.length_cons, Nat.add_right_cancel_iff]
  constructor
  · rintro ⟨hlength, hall⟩
    exact ⟨hall 0 element rfl, hlength, fun k e he => hall (k + 1) e he⟩
  · rintro ⟨hfirst, hlength, hall⟩
    refine ⟨hlength, fun k e he => ?_⟩
    cases k with
    | zero =>
        cases he
        exact hfirst
    | succ k => exact hall k e he

end Arrays

variable {S} {n i pos : ℕ} {arr pieces : List Piece}

theorem substr_pieceTo (i : ℕ) (hpos : pos ≤ S.str.length) :
    substr S.str pos (S.finish i pos - pos) = some (S.pieceTo i pos) := by
  have hle := S.finish_le i pos
  rw [substr, if_neg (Nat.not_lt.2 hpos), pieceTo, Nat.min_eq_left (by omega)]

theorem splitArrayFrom_succ (hpos : pos ≤ S.str.length) :
    S.splitArrayFrom (n + 1) i pos =
      (S.splitArrayFrom n (i + 1) (S.finish i pos + (S.onDelimiter i).length)).map
        (S.pieceTo i pos :: ·) := by
  have hsubstr := substr_pieceTo i hpos
  rw [finish] at hsubstr
  rw [splitArrayFrom, hsubstr, Option.bind_eq_bind, Option.bind_some]
  cases hrest : S.splitArrayFrom n (i + 1) (S.finish i pos + (S.onDelimiter i).length) with
  | none =>
      rw [finish] at hrest
      rw [hrest]
      rfl
  | some rest =>
      rw [finish] at hrest
      rw [hrest]
      rfl

/-- Behind the end of the string `substr` throws. -/
theorem splitArrayFrom_of_lt (h : S.str.length < pos) : S.splitArrayFrom (n + 1) i pos = none := by
  rw [splitArrayFrom, substr, if_pos h]
  rfl

theorem visit_succ (hpos : pos ≤ S.str.length) :
    S.visit (n + 1) (S.iterAt i pos) =
      ((next S (S.iterAt i pos)).bind (S.visit n)).map (S.pieceTo i pos :: ·) := by
  have hderef : deref S (S.iterAt i pos) = some (S.pieceTo i pos) := substr_pieceTo i hpos
  have hend : (S.iterAt i pos).equals endIter = false := by
    simp [SplitterIterator.equals, iterAt, endIter, SplitterIterator.default]
  rw [visit, hend, if_neg Bool.false_ne_true, hderef]
  cases next S (S.iterAt i pos) with
  | none => rfl
  | some it => cases hrest : S.visit n it <;> simp [hrest]

theorem visit_of_lt (h : S.str.length < pos) : S.visit (n + 1) (S.iterAt i pos) = none := by
  have hderef : deref S (S.iterAt i pos) = none := by
    simp [deref, iterAt, substr, h]
  have hend : (S.iterAt i pos).equals endIter = false := by
    simp [SplitterIterator.equals, iterAt, endIter, SplitterIterator.default]
  rw [visit, hend, if_neg Bool.false_ne_true, hderef]
  rfl

theorem visit_ended (it : SplitterIterator) (h : it.spltr = false) (n : ℕ) :
    S.visit n it = some [] := by
  cases n with
  | zero => rfl
  | succ n =>
      rw [visit, if_pos]
      simp [SplitterIterator.equals, h, endIter, SplitterIterator.default]

/-! ## Delimiters -/

/-- The condition from the `i`-th delimiter on. -/
def EvenFrom (S : BasicSplitter α) (n i pos : ℕ) : Prop :=
  ∀ k, k + 1 < n → ∃ place, S.delimFrom k i pos = some place ∧ S.EvenAt (i + k) place

theorem splitsEvenly_iff (S : BasicSplitter α) (n : ℕ) :
    S.SplitsEvenly n ↔ S.EvenFrom n 0 0 := by
  rw [SplitsEvenly, EvenFrom]
  refine forall_congr' fun k => ?_
  rw [Nat.zero_add, delimAt]

theorem evenFrom_of_le_one (h : n ≤ 1) (i pos : ℕ) : S.EvenFrom n i pos :=
  fun k hk => absurd hk (by omega)

theorem evenFrom_succ :
    S.EvenFrom (n + 2) i pos ↔ ∃ place, findFrom S.str (S.onDelimiter i) pos = some place ∧
      S.EvenAt i place ∧ S.EvenFrom (n + 1) (i + 1) (place + (S.onDelimiter i).length) := by
  constructor
  · intro h
    obtain ⟨place, hfind, heven⟩ := h 0 (by omega)
    refine ⟨place, hfind, heven, fun k hk => ?_⟩
    obtain ⟨place', hfind', heven'⟩ := h (k + 1) (by omega)
    have hplace : findFrom S.str (S.onDelimiter i) pos = some place := hfind
    rw [delimFrom, hplace, Option.bind_some] at hfind'
    refine ⟨place', hfind', ?_⟩
    rwa [Nat.add_assoc, Nat.add_comm 1 k]
  · rintro ⟨place, hfind, heven, hrest⟩ k hk
    cases k with
    | zero => exact ⟨place, hfind, heven⟩
    | succ k =>
        obtain ⟨place', hfind', heven'⟩ := hrest k (by omega)
        refine ⟨place', ?_, ?_⟩
        · rw [delimFrom, hfind, Option.bind_some, hfind']
        · rwa [Nat.add_assoc, Nat.add_comm 1 k] at heven'

theorem onDelimiter_pos_of_none (hpos : pos ≤ S.str.length)
    (h : findFrom S.str (S.onDelimiter i) pos = none) : 0 < (S.onDelimiter i).length := by
  refine List.length_pos_of_ne_nil fun hnil => ?_
  have hempty : findFrom S.str (S.onDelimiter i) pos = some pos := by
    rw [hnil, findFrom_eq_some_iff]
    exact ⟨Nat.le_refl _, hpos, List.nil_prefix, fun j hj hlt => absurd hj (Nat.not_le.2 hlt)⟩
  rw [h] at hempty
  cases hempty

theorem exists_findFrom_of_splitArrayFrom (hpos : pos ≤ S.str.length)
    (h : S.splitArrayFrom (n + 2) i pos = some arr) :
    ∃ place rest, findFrom S.str (S.onDelimiter i) pos = some place ∧
      place + (S.onDelimiter i).length ≤ S.str.length ∧ S.finish i pos = place ∧
      S.splitArrayFrom (n + 1) (i + 1) (place + (S.onDelimiter i).length) = some rest ∧
      arr = S.pieceTo i pos :: rest := by
  rw [splitArrayFrom_succ hpos, Option.map_eq_some_iff] at h
  obtain ⟨rest, hrest, rfl⟩ := h
  cases hfind : findFrom S.str (S.onDelimiter i) pos with
  | none =>
      have hlong := onDelimiter_pos_of_none hpos hfind
      have hend : S.finish i pos = S.str.length := finishFrom_of_none hfind
      rw [splitArrayFrom_of_lt (by omega)] at hrest
      cases hrest
  | some place =>
      have hplace := finish_of_some hfind
      rw [hplace] at hrest
      exact ⟨place, rest, rfl, add_length_le_of_findFrom hfind, hplace, hrest, rfl⟩

/-! ## Where the array is filled as it should be -/

theorem splitArrayFrom_of_evenFrom (hpos : pos ≤ S.str.length) (h : S.EvenFrom n i pos) :
    ∃ arr, S.splitArrayFrom n i pos = some arr ∧ Filled n (fun k => S.pieceFrom k i pos) arr := by
  induction n generalizing i pos with
  | zero => exact ⟨[], rfl, filled_nil _⟩
  | succ n ih =>
      cases n with
      | zero =>
          refine ⟨[S.pieceTo i pos], by rw [splitArrayFrom_succ hpos]; rfl, filled_cons.2 ⟨?_, ?_⟩⟩
          · rfl
          · exact filled_nil _
      | succ n =>
          obtain ⟨place, hfind, -, hrest⟩ := evenFrom_succ.1 h
          obtain ⟨arr, harr, hfilled⟩ := ih (add_length_le_of_findFrom hfind) hrest
          refine ⟨S.pieceTo i pos :: arr, ?_, filled_cons.2 ⟨rfl, ?_⟩⟩
          · rw [splitArrayFrom_succ hpos, finish_of_some hfind, harr]
            rfl
          · have htail : (fun k => S.pieceFrom (k + 1) i pos) =
                fun k => S.pieceFrom k (i + 1) (place + (S.onDelimiter i).length) := by
              funext k
              rw [pieceFrom, hfind, Option.bind_some]
            rwa [htail]

theorem splitArrayFrom_end (h : S.splitArrayFrom n i S.str.length = some arr) :
    Filled n (fun _ => none) arr ∧ S.EvenFrom n i S.str.length := by
  induction n generalizing i arr with
  | zero =>
      cases h
      exact ⟨filled_nil _, evenFrom_of_le_one (Nat.zero_le 1) _ _⟩
  | succ n ih =>
      have hfinish : S.finish i S.str.length = S.str.length :=
        Nat.le_antisymm (S.finish_le i _) (le_finish i (Nat.le_refl _))
      have hempty : (S.pieceTo i S.str.length).length = 0 := by
        rw [pieceTo, hfinish]
        exact Nat.sub_self _
      cases n with
      | zero =>
          rw [splitArrayFrom_succ (Nat.le_refl _)] at h
          cases h
          exact ⟨filled_cons.2 ⟨hempty, filled_nil _⟩, evenFrom_of_le_one (Nat.le_refl 1) _ _⟩
      | succ n =>
          obtain ⟨place, rest, hfind, hle, hplace, hrest, rfl⟩ :=
            exists_findFrom_of_splitArrayFrom (Nat.le_refl _) h
          have hend : place + (S.onDelimiter i).length = S.str.length := by omega
          rw [hend] at hrest
          obtain ⟨hfilled, heven⟩ := ih hrest
          refine ⟨filled_cons.2 ⟨hempty, hfilled⟩, evenFrom_succ.2 ⟨place, hfind, ?_, ?_⟩⟩
          · intro hlt
            omega
          · rwa [hend]

/-! ## Where the iteration agrees -/

theorem exists_next {place : ℕ} (hplace : S.finish i pos = place) (hlt : place < S.str.length) :
    ∃ start, next S (S.iterAt i pos) = some (S.iterAt (i + 1) start) ∧
      (start = place + (S.onDelimiter i).length ↔ S.EvenAt i place) := by
  by_cases hzero : place = 0
  · refine ⟨0, next_of_finish_eq_zero (by omega) (hplace.trans hzero), ?_⟩
    rw [EvenAt, if_pos hzero]
    omega
  · have hnext := next_of_finish_ne_zero (hplace ▸ hlt) (hplace ▸ hzero)
    rw [hplace] at hnext
    refine ⟨_, hnext, ?_⟩
    rw [EvenAt, if_neg hzero]
    omega

theorem visit_of_evenFrom (hpos : pos ≤ S.str.length) (heven : S.EvenFrom n i pos)
    (harr : S.splitArrayFrom n i pos = some arr) :
    ∃ pieces, S.visit n (S.iterAt i pos) = some pieces ∧ Filled n (fun k => pieces[k]?) arr := by
  induction n generalizing i pos arr with
  | zero =>
      cases harr
      exact ⟨[], rfl, filled_nil _⟩
  | succ n ih =>
      cases n with
      | zero =>
          rw [splitArrayFrom_succ hpos] at harr
          cases harr
          refine ⟨[S.pieceTo i pos], ?_, filled_cons.2 ⟨rfl, filled_nil _⟩⟩
          rw [visit_succ hpos, next_iterAt]
          split_ifs <;> rfl
      | succ n =>
          obtain ⟨place, rest, hfind, hle, hplace, hrest, rfl⟩ :=
            exists_findFrom_of_splitArrayFrom hpos harr
          obtain ⟨place', hfind', hevenAt, hevenRest⟩ := evenFrom_succ.1 heven
          rw [hfind, Option.some.injEq] at hfind'
          subst hfind'
          rcases Nat.lt_or_eq_of_le (S.finish_le i pos) with hlt | hend
          · rw [hplace] at hlt
            obtain ⟨start, hnext, hstart⟩ := exists_next hplace hlt
            rw [hstart.2 hevenAt] at hnext
            obtain ⟨pieces, hvisit, hfilled⟩ := ih hle hevenRest hrest
            refine ⟨S.pieceTo i pos :: pieces, ?_, filled_cons.2 ⟨rfl, hfilled⟩⟩
            rw [visit_succ hpos, hnext, Option.bind_some, hvisit]
            rfl
          · have hlength : place + (S.onDelimiter i).length = S.str.length := by omega
            rw [hlength] at hrest
            refine ⟨[S.pieceTo i pos], ?_, filled_cons.2 ⟨rfl, (splitArrayFrom_end hrest).1⟩⟩
            rw [visit_succ hpos, next_of_finish_eq hend, Option.bind_some, visit_ended _ rfl]
            rfl

theorem visit_cons (h : S.visit (n + 1) (S.iterAt i pos) = some pieces) :
    pos ≤ S.str.length ∧ ∃ rest, pieces = S.pieceTo i pos :: rest := by
  by_cases hpos : pos ≤ S.str.length
  · rw [visit_succ hpos, Option.map_eq_some_iff] at h
    obtain ⟨rest, -, rfl⟩ := h
    exact ⟨hpos, rest, rfl⟩
  · rw [visit_of_lt (Nat.lt_of_not_le hpos)] at h
    cases h

/-- Where the iteration has the pieces of the array, the delimiters are as long as the next
ones. -/
theorem evenFrom_of_visit (hpos : pos ≤ S.str.length)
    (harr : S.splitArrayFrom n i pos = some arr) (hvisit : S.visit n (S.iterAt i pos) = some pieces)
    (hfilled : Filled n (fun k => pieces[k]?) arr) : S.EvenFrom n i pos := by
  induction n generalizing i pos arr pieces with
  | zero => exact evenFrom_of_le_one (Nat.zero_le 1) _ _
  | succ n ih =>
      cases n with
      | zero => exact evenFrom_of_le_one (Nat.le_refl 1) _ _
      | succ n =>
          obtain ⟨place, rest, hfind, hle, hplace, hrest, rfl⟩ :=
            exists_findFrom_of_splitArrayFrom hpos harr
          refine evenFrom_succ.2 ⟨place, hfind, ?_⟩
          rcases Nat.lt_or_eq_of_le (S.finish_le i pos) with hlt | hend
          · rw [hplace] at hlt
            obtain ⟨start, hnext, hstart⟩ := exists_next hplace hlt
            rw [visit_succ hpos, hnext, Option.bind_some, Option.map_eq_some_iff] at hvisit
            obtain ⟨pieces', hvisit', rfl⟩ := hvisit
            have hfilled' := (filled_cons.1 hfilled).2
            -- the second element starts behind the delimiter, and the second piece at the iterator
            have heven : start = place + (S.onDelimiter i).length := by
              obtain ⟨-, rest', rfl⟩ := visit_cons hvisit'
              have hfirst := splitArrayFrom_succ (n := n) (i := i + 1) hle
              rw [hrest] at hfirst
              obtain ⟨arr', -, rfl⟩ := Option.map_eq_some_iff.1 hfirst.symm
              have hholding : S.pieceTo (i + 1) (place + (S.onDelimiter i).length) =
                  S.pieceTo (i + 1) start := (filled_cons.1 hfilled').1
              exact (congrArg Piece.pos hholding).symm
            rw [heven] at hvisit'
            exact ⟨hstart.1 heven, ih hle hrest hvisit' hfilled'⟩
          · have hlength : place + (S.onDelimiter i).length = S.str.length := by omega
            rw [hlength] at hrest ⊢
            refine ⟨?_, (splitArrayFrom_end hrest).2⟩
            intro hlt
            omega

/-! ## All strings -/

/-- An array of some size that is not refused ends its pieces at delimiters, and the iteration
agrees where they are as long as the next ones. -/
theorem splitsInto_iff (S : BasicSplitter α) (n : ℕ) : S.SplitsInto n ↔ S.SplitsEvenly n := by
  rw [splitsEvenly_iff]
  have hpos : 0 ≤ S.str.length := Nat.zero_le _
  by_cases hstr : S.str = []
  · have hlength : S.str.length = 0 := by rw [hstr, List.length_nil]
    have hvisited : S.visited n = some [] := by
      have hbegin : S.beginIter = some ⟨false, 0, 0, 0⟩ := by
        simp [beginIter, next, hstr]
      rw [visited, hbegin]
      exact visit_ended _ rfl n
    constructor
    · rintro ⟨arr, harr, -⟩
      rw [splitInto, ← hlength] at harr
      have heven := (splitArrayFrom_end harr).2
      rwa [hlength] at heven
    · intro heven
      obtain ⟨arr, harr, hfilled⟩ := splitArrayFrom_of_evenFrom hpos heven
      have hend := harr
      rw [← hlength] at hend
      exact ⟨arr, harr, hfilled, [], hvisited, (splitArrayFrom_end hend).1⟩
  · have hvisited : S.visited n = S.visit n (S.iterAt 0 0) := by
      rw [visited, beginIter_eq hstr]
      rfl
    constructor
    · rintro ⟨arr, harr, -, pieces, hpieces, hfilled⟩
      rw [hvisited] at hpieces
      exact evenFrom_of_visit hpos harr hpieces hfilled
    · intro heven
      obtain ⟨arr, harr, hfilled⟩ := splitArrayFrom_of_evenFrom hpos heven
      obtain ⟨pieces, hpieces, hagrees⟩ := visit_of_evenFrom hpos heven harr
      exact ⟨arr, harr, hfilled, pieces, hvisited.trans hpieces, hagrees⟩

/-- There is no third piece in `a@b`, and the array is not filled. -/
theorem not_splitsInto_three : ¬ (ofChars ['a', '@', 'b'] '@' []).SplitsInto 3 := by
  rintro ⟨arr, harr, -⟩
  cases harr

end Webpp.Text.Splits.BasicSplitter
