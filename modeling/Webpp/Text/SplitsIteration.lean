import Mathlib.Data.Nat.Init
import Webpp.Text.Splits

/-!
# Iterating over the pieces

With characters for delimiters the iterator yields the pieces of the string, unless the finish of
the first piece is 0. Then the piece has been yielded but nothing counts as read: the search for the
next delimiter starts at the beginning again, and the texts yielded are too long for the string.
-/

namespace Webpp.Text.Splits.BasicSplitter

variable {α : Type*} [DecidableEq α] {S : BasicSplitter α} {n i pos : ℕ} {pieces : List Piece}

/-- All delimiters are characters. -/
def CharDelims {α : Type*} (S : BasicSplitter α) : Prop := ∀ i, (S.onDelimiter i).length = 1

theorem charDelims_ofChars {α : Type*} (str : List α) (delim : α) (delims : List α) :
    (ofChars str delim delims).CharDelims := by
  intro i
  have hmem : (ofChars str delim delims).onDelimiter i ∈ (delim :: delims).map fun d => [d] :=
    List.get_mem _ _
  obtain ⟨d, -, hd⟩ := List.mem_map.1 hmem
  rw [← hd]
  rfl

theorem CharDelims.ne_nil {α : Type*} {S : BasicSplitter α} (h : S.CharDelims) (i : ℕ) :
    S.onDelimiter i ≠ [] := by
  have hone := h i
  intro hnil
  rw [hnil] at hone
  exact Nat.zero_ne_one hone

theorem collect_mono {it : SplitterIterator} {m : ℕ} (h : S.collect n it = some pieces)
    (hnm : n ≤ m) : S.collect m it = some pieces := by
  induction n generalizing it pieces m with
  | zero => cases h
  | succ n ih =>
      obtain ⟨m, rfl⟩ := Nat.exists_eq_add_of_le' (Nat.lt_of_lt_of_le (Nat.succ_pos n) hnm)
      rw [collect] at h ⊢
      split_ifs at h ⊢ with hend
      · exact h
      · cases hpiece : SplitterIterator.deref S it with
        | none =>
            rw [hpiece] at h
            cases h
        | some piece =>
            cases hnext : SplitterIterator.next S it with
            | none =>
                rw [hpiece, hnext] at h
                cases h
            | some it' =>
                rw [hpiece, hnext] at h
                cases hrest : S.collect n it' with
                | none =>
                    simp [hrest] at h
                | some rest =>
                    have hle := Nat.le_of_succ_le_succ hnm
                    simpa [ih hrest hle, hrest] using h

theorem split_mono {m : ℕ} (h : S.split n = some pieces) (hnm : n ≤ m) :
    S.split m = some pieces := by
  rw [split] at h ⊢
  cases hbegin : S.beginIter with
  | none =>
      rw [hbegin] at h
      cases h
  | some it =>
      rw [hbegin] at h
      exact collect_mono h hnm

/-! ## The iteration where something has been read -/

theorem collect_pieces (hchars : S.CharDelims) (hpos : pos ≤ S.str.length)
    (hfinish : S.finish i pos ≠ 0) :
    ∃ n pieces, S.collect n (S.iterAt i pos) = some pieces ∧
      ∀ k : ℕ, pieces[k]? = S.pieceFrom k i pos := by
  induction hmeasure : S.str.length - pos using Nat.strong_induction_on generalizing i pos with
  | h m ih =>
      rcases Nat.lt_or_eq_of_le (S.finish_le i pos) with hlt | heq
      · have hfind := findFrom_of_finish_lt hlt
        have hge : pos ≤ S.finish i pos := le_finish i hpos
        have hnext := next_of_finish_ne_zero hlt hfinish
        rw [hchars (i + 1)] at hnext
        have hnext_ne : S.finish (i + 1) (S.finish i pos + 1) ≠ 0 :=
          Nat.ne_of_gt (Nat.lt_of_lt_of_le (Nat.succ_pos _) (le_finish _ hlt))
        have hle : S.finish i pos + 1 ≤ S.str.length := hlt
        obtain ⟨n, pieces, hcollect, hpieces⟩ :=
          ih (S.str.length - (S.finish i pos + 1)) (by omega) hle hnext_ne
            rfl
        refine ⟨n + 1, S.pieceTo i pos :: pieces, ?_,
          fun k => ?_⟩
        · rw [collect_succ hpos, hnext, Option.bind_some, hcollect, Option.map_some]
        · cases k with
          | zero => rfl
          | succ k =>
              rw [List.getElem?_cons_succ, hpieces, pieceFrom, hfind, Option.bind_some, hchars i]
      · have hfind := findFrom_of_finishFrom_eq (hchars.ne_nil i) heq
        refine ⟨2, [S.pieceTo i pos], ?_, fun k => ?_⟩
        · rw [collect_succ hpos, next_of_finish_eq heq, Option.bind_some, collect_ended _ rfl]
          rfl
        · cases k with
          | zero => rfl
          | succ k =>
              rw [pieceFrom, hfind]
              rfl

/-! ## The length of the texts -/

/-- The characters of the texts, with one more for the end of each. -/
def weight {α : Type*} (S : BasicSplitter α) (pieces : List Piece) : ℕ :=
  (pieces.flatMap S.text).length + pieces.length

theorem weight_cons {α : Type*} (S : BasicSplitter α) (piece : Piece) (pieces : List Piece) :
    S.weight (piece :: pieces) = (S.text piece).length + 1 + S.weight pieces := by
  rw [weight, List.flatMap_cons, List.length_append, List.length_cons, weight]
  omega

theorem length_text_pieceTo (S : BasicSplitter α) (i : ℕ) (hpos : pos ≤ S.str.length) :
    (S.text (S.pieceTo i pos)).length = S.finish i pos - pos := by
  have hfinish := S.finish_le i pos
  rw [text, pieceTo, List.length_take, List.length_drop]
  dsimp only
  omega

theorem weight_of_pieces (hchars : S.CharDelims) (hpos : pos ≤ S.str.length)
    (h : ∀ k : ℕ, (pieces[k]?).map S.text = (S.pieceFrom k i pos).map S.text) :
    S.weight pieces = S.str.length - pos + 1 := by
  induction pieces generalizing i pos with
  | nil => cases h 0
  | cons piece pieces ih =>
      have hfinish := S.finish_le i pos
      have hge : pos ≤ S.finish i pos := le_finish i hpos
      have hfirst : S.text piece = S.text (S.pieceTo i pos) :=
        Option.some.inj (h 0)
      rw [weight_cons, hfirst, length_text_pieceTo S i hpos]
      rcases Nat.lt_or_eq_of_le hfinish with hlt | heq
      · have hfind := findFrom_of_finish_lt hlt
        have hle : S.finish i pos + 1 ≤ S.str.length := hlt
        have htail : ∀ k : ℕ, (pieces[k]?).map S.text = (S.pieceFrom k (i + 1)
            (S.finish i pos + 1)).map S.text := by
          intro k
          have hk := h (k + 1)
          rwa [List.getElem?_cons_succ, pieceFrom, hfind, Option.bind_some, hchars i] at hk
        rw [ih hle htail]
        omega
      · have hnone := h 1
        rw [pieceFrom, findFrom_of_finishFrom_eq (hchars.ne_nil i) heq] at hnone
        have hnil : pieces = [] := by
          cases pieces with
          | nil => rfl
          | cons piece' pieces => cases hnone
        rw [hnil, heq]
        rfl

theorem weight_of_collect (hchars : S.CharDelims) (hpos : pos ≤ S.str.length)
    (hstr : S.str ≠ []) (h : S.collect n (S.iterAt i pos) = some pieces) :
    S.str.length - pos + 1 ≤ S.weight pieces ∧
      (S.finish i pos = 0 → S.str.length + 1 < S.weight pieces) := by
  induction n generalizing i pos pieces with
  | zero => cases h
  | succ n ih =>
      have hlength := List.length_pos_of_ne_nil hstr
      have hfinish := S.finish_le i pos
      have hge : pos ≤ S.finish i pos := le_finish i hpos
      rw [collect_succ hpos, Option.map_eq_some_iff] at h
      obtain ⟨rest, hrest, rfl⟩ := h
      rw [weight_cons, length_text_pieceTo S i hpos]
      rcases Nat.lt_or_eq_of_le hfinish with hlt | heq
      · by_cases hzero : S.finish i pos = 0
        · rw [next_of_finish_eq_zero hlength hzero, Option.bind_some] at hrest
          have hweight := (ih (Nat.zero_le _) hrest).1
          omega
        · rw [next_of_finish_ne_zero hlt hzero, Option.bind_some, hchars (i + 1)] at hrest
          have hweight := (ih hlt hrest).1
          omega
      · omega

/-! ## All strings -/

theorem finishFrom_eq_zero_iff {str delim : List α} (hstr : str ≠ []) :
    finishFrom str delim 0 = 0 ↔ delim <+: str := by
  have hlength := List.length_pos_of_ne_nil hstr
  constructor
  · intro hzero
    have hlt : finishFrom str delim 0 < str.length := by rwa [hzero]
    have hfind := findFrom_of_finishFrom_lt hlt
    rw [hzero] at hfind
    exact (findFrom_eq_some_iff.1 hfind).2.2.1
  · intro hprefix
    refine finishFrom_of_some (findFrom_eq_some_iff.2 ⟨Nat.le_refl 0, Nat.zero_le _, hprefix, ?_⟩)
    exact fun j _ hj => absurd hj (Nat.not_lt_zero j)

theorem yieldsPieces_of_ne_zero (hchars : S.CharDelims) (hstr : S.str ≠ [])
    (hfinish : S.finish 0 0 ≠ 0) : S.YieldsPieces := by
  obtain ⟨n, pieces, hcollect, hpieces⟩ := collect_pieces hchars (Nat.zero_le _) hfinish
  refine ⟨n, pieces, ?_, fun k => by rw [hpieces k, pieceAt]⟩
  rw [split, beginIter_eq hstr]
  exact hcollect

theorem not_yieldsPieces_of_eq_zero (hchars : S.CharDelims) (hstr : S.str ≠ [])
    (hfinish : S.finish 0 0 = 0) : ¬ S.YieldsPieces := by
  rintro ⟨n, pieces, hsplit, hpieces⟩
  rw [split, beginIter_eq hstr] at hsplit
  have hlong := (weight_of_collect hchars (Nat.zero_le _) hstr hsplit).2 hfinish
  have hweight := weight_of_pieces hchars (Nat.zero_le _) hpieces
  omega

theorem not_yieldsPieces_of_nil (hstr : S.str = []) : ¬ S.YieldsPieces := by
  rintro ⟨n, pieces, hsplit, hpieces⟩
  cases n with
  | zero =>
      rw [split] at hsplit
      cases hbegin : S.beginIter with
      | none =>
          rw [hbegin] at hsplit
          cases hsplit
      | some it =>
          rw [hbegin] at hsplit
          cases hsplit
  | succ n =>
      rw [split_of_nil hstr] at hsplit
      cases hsplit
      cases hpieces 0

/-- The pieces of a string are yielded if and only if it is not empty and does not begin with the
first delimiter. -/
theorem yieldsPieces_iff (str : List α) (delim : α) (delims : List α) :
    (ofChars str delim delims).YieldsPieces ↔ str ≠ [] ∧ str.head? ≠ some delim := by
  have hchars := charDelims_ofChars str delim delims
  have hprefix : [delim] <+: str ↔ str.head? = some delim := by
    cases str with
    | nil => simp
    | cons c str =>
        rw [List.cons_prefix_cons]
        simp [eq_comm]
  by_cases hstr : str = []
  · exact iff_of_false (not_yieldsPieces_of_nil hstr) fun h => h.1 hstr
  · have hzero : finishFrom str [delim] 0 = 0 ↔ str.head? = some delim :=
      (finishFrom_eq_zero_iff hstr).trans hprefix
    by_cases hhead : str.head? = some delim
    · exact iff_of_false (not_yieldsPieces_of_eq_zero hchars hstr (hzero.2 hhead))
        fun h => h.2 hhead
    · exact iff_of_true (yieldsPieces_of_ne_zero hchars hstr (mt hzero.1 hhead)) ⟨hstr, hhead⟩

/-- The name `.a` is not split at its dot: the empty piece in front of it is yielded forever. -/
theorem not_yieldsPieces_dot : ¬ (ofChars ['.', 'a'] '.' []).YieldsPieces :=
  not_yieldsPieces_of_eq_zero (charDelims_ofChars _ _ _) (List.cons_ne_nil _ _) (by decide)

/-! ## One delimiter -/

section OneDelimiter

variable {str : List α} {delim : α}

theorem find_char_cons (c : α) (rest : List α) :
    find [delim] (c :: rest) = if delim = c then some 0 else (find [delim] rest).map (· + 1) := by
  rw [find]
  exact if_congr (by simp) rfl rfl

theorem find_char_none (h : find [delim] str = none) : delim ∉ str := by
  induction str with
  | nil => exact List.not_mem_nil
  | cons c rest ih =>
      rw [find_char_cons] at h
      split_ifs at h with hc
      rw [Option.map_eq_none_iff] at h
      exact List.not_mem_cons_of_ne_of_not_mem hc (ih h)

theorem find_char_some (h : find [delim] str = some i) :
    delim ∉ str.take i ∧ str.take i ++ delim :: str.drop (i + 1) = str := by
  induction str generalizing i with
  | nil => cases h
  | cons c rest ih =>
      rw [find_char_cons] at h
      split_ifs at h with hc
      · cases h
        exact ⟨List.not_mem_nil, by rw [hc]; rfl⟩
      · obtain ⟨j, hj, rfl⟩ := Option.map_eq_some_iff.1 h
        obtain ⟨hmem, hsplit⟩ := ih hj
        refine ⟨List.not_mem_cons_of_ne_of_not_mem hc hmem, ?_⟩
        rw [List.take_succ_cons, List.drop_succ_cons, List.cons_append, hsplit]

theorem onDelimiter_ofChars {α : Type*} (str : List α) (delim : α) (i : ℕ) :
    (ofChars str delim []).onDelimiter i = [delim] :=
  List.mem_singleton.1 (List.get_mem [[delim]] _)

theorem pieceFrom_ofChars (hpos : pos ≤ str.length) (k : ℕ) :
    ((ofChars str delim []).pieceFrom k i pos).map (ofChars str delim []).text =
      ((str.drop pos).splitOn delim)[k]? := by
  have hdelim := onDelimiter_ofChars str delim
  induction k generalizing i pos with
  | zero =>
      rw [pieceFrom, Option.map_some, pieceTo, text, finish, hdelim]
      cases hfind : findFrom str [delim] pos with
      | none =>
          rw [show (ofChars str delim []).str = str from rfl, finishFrom_of_none hfind]
          rw [findFrom, if_neg (Nat.not_lt.2 hpos), Option.map_eq_none_iff] at hfind
          rw [List.splitOn_eq_singleton (find_char_none hfind), ← List.length_drop,
            List.take_length]
          rfl
      | some place =>
          rw [show (ofChars str delim []).str = str from rfl, finishFrom_of_some hfind]
          rw [findFrom, if_neg (Nat.not_lt.2 hpos)] at hfind
          obtain ⟨j, hj, rfl⟩ := Option.map_eq_some_iff.1 hfind
          obtain ⟨hmem, hsplit⟩ := find_char_some hj
          rw [← hsplit, List.splitOn_append_cons_self_of_not_mem hmem, hsplit,
            Nat.add_sub_cancel_left]
          rfl
  | succ k ih =>
      rw [pieceFrom, hdelim, show (ofChars str delim []).str = str from rfl]
      cases hfind : findFrom str [delim] pos with
      | none =>
          rw [findFrom, if_neg (Nat.not_lt.2 hpos), Option.map_eq_none_iff] at hfind
          rw [List.splitOn_eq_singleton (find_char_none hfind)]
          rfl
      | some place =>
          have hle := add_length_le_of_findFrom hfind
          rw [Option.bind_some, ih hle]
          rw [findFrom, if_neg (Nat.not_lt.2 hpos)] at hfind
          obtain ⟨j, hj, rfl⟩ := Option.map_eq_some_iff.1 hfind
          obtain ⟨hmem, hsplit⟩ := find_char_some hj
          rw [← hsplit, List.splitOn_append_cons_self_of_not_mem hmem, List.getElem?_cons_succ,
            List.drop_drop]
          rfl

/-- The texts of the pieces, for a string that the delimiter does not begin. -/
theorem split_ofChars (hstr : str ≠ []) (hhead : str.head? ≠ some delim) :
    ∃ n, ((ofChars str delim []).split n).map (·.map (ofChars str delim []).text) =
      some (str.splitOn delim) := by
  obtain ⟨n, pieces, hsplit, hpieces⟩ := (yieldsPieces_iff str delim []).2 ⟨hstr, hhead⟩
  refine ⟨n, ?_⟩
  rw [hsplit, Option.map_some]
  refine congrArg some (List.ext_getElem? fun k => ?_)
  rw [List.getElem?_map, hpieces k, pieceAt, pieceFrom_ofChars (Nat.zero_le _), List.drop_zero]

theorem collect_of_head (hhead : str.head? = some delim) (n : ℕ) :
    (ofChars str delim []).collect n ((ofChars str delim []).iterAt i 0) = none := by
  induction n generalizing i with
  | zero => rfl
  | succ n ih =>
      obtain ⟨rest, rfl⟩ := List.head?_eq_some_iff.1 hhead
      have hzero : (ofChars (delim :: rest) delim []).finish i 0 = 0 := by
        rw [finish, onDelimiter_ofChars]
        exact (finishFrom_eq_zero_iff (List.cons_ne_nil _ _)).2 (by simp)
      have hlt : 0 < (ofChars (delim :: rest) delim []).str.length := Nat.succ_pos _
      rw [collect_succ (Nat.zero_le _), next_of_finish_eq_zero hlt hzero, Option.bind_some, ih]
      rfl

theorem split_of_head (hhead : str.head? = some delim) (n : ℕ) :
    (ofChars str delim []).split n = none := by
  have hstr : (ofChars str delim []).str ≠ [] := by
    rintro hnil
    rw [show str = [] from hnil] at hhead
    cases hhead
  rw [split, beginIter_eq hstr]
  exact collect_of_head hhead n

end OneDelimiter

end Webpp.Text.Splits.BasicSplitter
