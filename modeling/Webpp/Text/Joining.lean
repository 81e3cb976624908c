import Webpp.Text.SplitsIteration

/-!
# `strings::join_with`

The strings are put together with the delimiters between them, the last one again and again. What
is joined with characters is taken apart again by a splitter with the same characters, if no string
has the delimiter behind it and the first one is not empty.
-/

namespace Webpp.Text.Splits

variable {α : Type*}

/-- `run` of `join_with`: the delimiter and the next string, if there is one. -/
def joinRun (r : List α × List (List α)) (delim : List α) : List α × List (List α) :=
  match r.2 with
  | [] => r
  | item :: rest => (r.1 ++ delim ++ item, rest)

/-- `join_with` of a collection. -/
def joinWith (output : List α) (vec delims : List (List α)) : List α :=
  let first : List α × List (List α) :=
    match vec with
    | [] => (output, [])
    | item :: rest => (output ++ item, rest)
  let r := delims.foldl joinRun first
  match delims.getLast? with
  | some lastDelim => r.2.foldl (fun out item => out ++ lastDelim ++ item) r.1
  | none => r.2.foldl (fun out item => out ++ item) r.1

/-- The character between the strings `i` and `i + 1`. -/
def delimChar (delim : α) : List α → ℕ → α
  | _, 0 => delim
  | [], _ + 1 => delim
  | d :: delims, i + 1 => delimChar d delims i

/-- The delimiters as strings. -/
def charDelims (delim : α) (delims : List α) : List (List α) := (delim :: delims).map fun d => [d]

/-- The strings behind the first one, each with a character in front of it. -/
def joinedFrom (delimAt : ℕ → α) : ℕ → List (List α) → List α
  | _, [] => []
  | i, item :: rest => delimAt i :: (item ++ joinedFrom delimAt (i + 1) rest)

/-! ## The joined text -/

section Joined

variable {delimAt delimAt' : ℕ → α} {delim : α}

theorem joinedFrom_shift {i j : ℕ} (h : ∀ k, delimAt (i + k) = delimAt' (j + k))
    (vec : List (List α)) : joinedFrom delimAt i vec = joinedFrom delimAt' j vec := by
  induction vec generalizing i j with
  | nil => rfl
  | cons item rest ih =>
      have hrest : ∀ k, delimAt (i + 1 + k) = delimAt' (j + 1 + k) := by
        intro k
        rw [Nat.add_assoc, Nat.add_assoc]
        exact h (1 + k)
      rw [joinedFrom, joinedFrom, ih hrest, show delimAt i = delimAt' j from h 0]

@[simp] theorem delimChar_nil (delim : α) (i : ℕ) : delimChar delim [] i = delim := by
  cases i <;> rfl

theorem foldl_lastDelim (delim : α) (vec : List (List α)) (out : List α) :
    vec.foldl (fun out item => out ++ [delim] ++ item) out =
      out ++ joinedFrom (delimChar delim []) 0 vec := by
  induction vec generalizing out with
  | nil => simp [joinedFrom]
  | cons item rest ih =>
      have hshift : joinedFrom (delimChar delim []) 1 rest = joinedFrom (delimChar delim []) 0 rest :=
        joinedFrom_shift (fun k => by simp) rest
      rw [List.foldl_cons, ih, joinedFrom, hshift, delimChar_nil]
      simp

theorem joinRuns_eq (delim : α) (delims : List α) (vec : List (List α)) (out : List α) :
    let r := (charDelims delim delims).foldl joinRun (out, vec)
    (match (charDelims delim delims).getLast? with
      | some lastDelim => r.2.foldl (fun out item => out ++ lastDelim ++ item) r.1
      | none => r.2.foldl (fun out item => out ++ item) r.1) =
        out ++ joinedFrom (delimChar delim delims) 0 vec := by
  induction delims generalizing delim vec out with
  | nil =>
      cases vec with
      | nil => simp [charDelims, joinRun, joinedFrom]
      | cons item rest =>
          have hshift : joinedFrom (delimChar delim []) 1 rest =
              joinedFrom (delimChar delim []) 0 rest := joinedFrom_shift (fun k => by simp) rest
          simp only [charDelims, List.map_cons, List.map_nil, List.foldl_cons, List.foldl_nil,
            joinRun, List.getLast?_singleton]
          rw [foldl_lastDelim, joinedFrom, hshift]
          simp
  | cons d delims ih =>
      have hlast : (charDelims delim (d :: delims)).getLast? = (charDelims d delims).getLast? := by
        rw [charDelims, List.map_cons, List.map_cons, List.getLast?_cons_cons]
        rfl
      have hruns : (charDelims delim (d :: delims)).foldl joinRun (out, vec) =
          (charDelims d delims).foldl joinRun (joinRun (out, vec) [delim]) := rfl
      rw [hlast, hruns]
      cases vec with
      | nil => exact ih d [] out
      | cons item rest =>
          have hshift : joinedFrom (delimChar delim (d :: delims)) 1 rest =
              joinedFrom (delimChar d delims) 0 rest :=
            joinedFrom_shift (fun k => by rw [Nat.add_comm, Nat.zero_add]; rfl) rest
          rw [joinedFrom, hshift]
          exact (ih d rest (out ++ [delim] ++ item)).trans (by simp [delimChar])

theorem joinWith_cons (output item : List α) (rest : List (List α)) (delim : α) (delims : List α) :
    joinWith output (item :: rest) (charDelims delim delims) =
      output ++ item ++ joinedFrom (delimChar delim delims) 0 rest :=
  joinRuns_eq delim delims rest (output ++ item)

theorem joinWith_nil (output : List α) (delim : α) (delims : List α) :
    joinWith output [] (charDelims delim delims) = output :=
  (joinRuns_eq delim delims [] output).trans (by simp [joinedFrom])

theorem length_joinedFrom (i : ℕ) (vec : List (List α)) :
    (joinedFrom delimAt i vec).length = vec.flatten.length + vec.length := by
  induction vec generalizing i with
  | nil => rfl
  | cons item rest ih =>
      rw [joinedFrom, List.length_cons, List.length_append, ih, List.flatten_cons,
        List.length_append, List.length_cons]
      omega

end Joined

/-! ## Splitting the joined text -/

namespace BasicSplitter

variable [DecidableEq α]

/-- The splitter takes the joined text apart into the strings. -/
def Rejoins (vec : List (List α)) (delim : α) (delims : List α) : Prop :=
  let S := ofChars (joinWith [] vec (charDelims delim delims)) delim delims
  ∃ n pieces, S.split n = some pieces ∧ pieces.map S.text = vec

section Cut

variable {S : BasicSplitter α} {delimAt : ℕ → α} {i pos : ℕ} {item : List α}
  {vec : List (List α)}

omit [DecidableEq α] in
theorem onDelimiter_ofChars_at (str : List α) (delim : α) (delims : List α) (i : ℕ) :
    (ofChars str delim delims).onDelimiter i = [delimChar delim delims i] := by
  have hget : ∀ (delim : α) (delims : List α) (i : ℕ)
      (h : min i ((charDelims delim delims).length - 1) < (charDelims delim delims).length),
      (charDelims delim delims).get ⟨_, h⟩ = [delimChar delim delims i] := by
    intro delim delims
    induction delims generalizing delim with
    | nil =>
        intro i h
        rw [delimChar_nil]
        exact List.mem_singleton.1 (List.get_mem [[delim]] _)
    | cons d delims ih =>
        intro i h
        cases i with
        | zero => rfl
        | succ i =>
            have hmin : min (i + 1) ((charDelims delim (d :: delims)).length - 1) =
                min i ((charDelims d delims).length - 1) + 1 := by
              simp only [charDelims, List.map_cons, List.length_cons]
              omega
            have hlt : min i ((charDelims d delims).length - 1) < (charDelims d delims).length := by
              simp only [charDelims, List.length_map, List.length_cons]
              omega
            rw [delimChar, ← ih d i hlt]
            simp only [hmin]
            rfl
  exact hget delim delims i _

/-- The first place of a character behind a string without it. -/
theorem find_char_append {delim : α} (h : delim ∉ item) (rest : List α) :
    find [delim] (item ++ delim :: rest) = some item.length := by
  induction item with
  | nil => rw [List.nil_append, find_char_cons, if_pos rfl, List.length_nil]
  | cons c item ih =>
      rw [List.mem_cons, not_or] at h
      rw [List.cons_append, find_char_cons, if_neg h.1, ih h.2]
      rfl

theorem find_char_of_not_mem {delim : α} (h : delim ∉ item) : find [delim] item = none := by
  induction item with
  | nil => rfl
  | cons c item ih =>
      rw [List.mem_cons, not_or] at h
      rw [find_char_cons, if_neg h.1, ih h.2]
      rfl

theorem pieceFrom_joined (hdelims : ∀ i, S.onDelimiter i = [delimAt i])
    (hpos : pos ≤ S.str.length) (hdrop : S.str.drop pos = item ++ joinedFrom delimAt i vec)
    (hclean : ∀ (k : ℕ) p, (item :: vec)[k]? = some p → delimAt (i + k) ∉ p) (k : ℕ) :
    (S.pieceFrom k i pos).map S.text = (item :: vec)[k]? := by
  have hitem : delimAt i ∉ item := hclean 0 item rfl
  have hlength : S.str.length - pos = item.length + (joinedFrom delimAt i vec).length := by
    rw [← List.length_append, ← hdrop, List.length_drop]
  induction vec generalizing item i pos k with
  | nil =>
      have hnone : findFrom S.str (S.onDelimiter i) pos = none := by
        rw [findFrom, if_neg (Nat.not_lt.2 hpos), hdrop, joinedFrom, List.append_nil, hdelims,
          find_char_of_not_mem hitem]
        rfl
      cases k with
      | zero =>
          rw [pieceFrom, Option.map_some, pieceTo, text, finish, finishFrom_of_none hnone, hdrop,
            hlength, ← List.length_append, List.take_length, joinedFrom, List.append_nil]
          rfl
      | succ k =>
          rw [pieceFrom, hnone]
          rfl
  | cons next vec ih =>
      rw [joinedFrom] at hdrop
      rw [joinedFrom, List.length_cons, List.length_append] at hlength
      have hfind : findFrom S.str (S.onDelimiter i) pos = some (pos + item.length) := by
        rw [findFrom, if_neg (Nat.not_lt.2 hpos), hdrop, hdelims, find_char_append hitem]
        rfl
      cases k with
      | zero =>
          have htext : S.text (S.pieceTo i pos) = item := by
            rw [pieceTo, text, finish, finishFrom_of_some hfind, Nat.add_sub_cancel_left, hdrop,
              List.take_left]
          rw [pieceFrom, Option.map_some, htext]
          rfl
      | succ k =>
          have hpos' : pos + item.length + 1 ≤ S.str.length := by omega
          have hdrop' : S.str.drop (pos + item.length + 1) =
              next ++ joinedFrom delimAt (i + 1) vec := by
            rw [Nat.add_assoc, ← List.drop_drop, hdrop, ← List.drop_drop, List.drop_left]
            rfl
          have hclean' : ∀ (k : ℕ) p, (next :: vec)[k]? = some p → delimAt (i + 1 + k) ∉ p := by
            intro k p hk
            rw [Nat.add_assoc, Nat.add_comm 1 k]
            exact hclean (k + 1) p hk
          rw [pieceFrom, hfind, Option.bind_some, hdelims, List.length_singleton]
          refine ih hpos' hdrop' hclean' k (hclean' 0 next rfl) ?_
          rw [← List.length_append, ← hdrop', List.length_drop]

theorem not_mem_text_pieceFrom (hdelims : ∀ i, S.onDelimiter i = [delimAt i])
    (hpos : pos ≤ S.str.length) (k : ℕ) {piece : Piece} (h : S.pieceFrom k i pos = some piece) :
    delimAt (i + k) ∉ S.text piece := by
  induction k generalizing i pos with
  | zero =>
      cases h
      rw [text, pieceTo, finish, hdelims]
      cases hfind : findFrom S.str [delimAt i] pos with
      | none =>
          rw [finishFrom_of_none hfind, ← List.length_drop, List.take_length]
          rw [findFrom, if_neg (Nat.not_lt.2 hpos), Option.map_eq_none_iff] at hfind
          exact find_char_none hfind
      | some place =>
          rw [finishFrom_of_some hfind]
          rw [findFrom, if_neg (Nat.not_lt.2 hpos)] at hfind
          obtain ⟨j, hj, rfl⟩ := Option.map_eq_some_iff.1 hfind
          rw [Nat.add_sub_cancel_left]
          exact (find_char_some hj).1
  | succ k ih =>
      rw [pieceFrom] at h
      obtain ⟨place, hfind, hrest⟩ := Option.bind_eq_some_iff.1 h
      rw [Nat.add_comm k 1, ← Nat.add_assoc]
      exact ih (add_length_le_of_findFrom hfind) hrest

end Cut

/-! ## All lists of strings -/

section Rejoining

variable {vec : List (List α)} {delim : α} {delims : List α}

/-- No string has the delimiter behind it, and the first one is not empty. -/
def Joinable (vec : List (List α)) (delim : α) (delims : List α) : Prop :=
  vec.head? ≠ some [] ∧ ∀ (i : ℕ) p, vec[i]? = some p → delimChar delim delims i ∉ p

theorem rejoins_of_joinable (h : Joinable vec delim delims) : Rejoins vec delim delims := by
  cases vec with
  | nil =>
      refine ⟨1, [], ?_, rfl⟩
      exact split_of_nil (joinWith_nil [] delim delims) 0
  | cons item rest =>
      rw [Rejoins]
      have hstr : joinWith [] (item :: rest) (charDelims delim delims) =
          item ++ joinedFrom (delimChar delim delims) 0 rest := joinWith_cons [] item rest _ _
      rw [hstr]
      generalize hjoined : item ++ joinedFrom (delimChar delim delims) 0 rest = str
      have hitem : item ≠ [] := fun hnil => h.1 (by rw [hnil]; rfl)
      obtain ⟨c, item', rfl⟩ := List.exists_cons_of_ne_nil hitem
      have hc : c ≠ delim := by
        rintro rfl
        have hmem := h.2 0 (c :: item') rfl
        rw [delimChar] at hmem
        exact hmem List.mem_cons_self
      have hyields : (ofChars str delim delims).YieldsPieces := by
        refine (yieldsPieces_iff str delim delims).2 ?_
        rw [← hjoined, List.cons_append]
        exact ⟨List.cons_ne_nil _ _, fun hhead => hc (Option.some.inj hhead)⟩
      obtain ⟨n, pieces, hsplit, hpieces⟩ := hyields
      refine ⟨n, pieces, hsplit, List.ext_getElem? fun k => ?_⟩
      rw [List.getElem?_map, hpieces k, pieceAt]
      refine pieceFrom_joined (onDelimiter_ofChars_at str delim delims) (Nat.zero_le _)
        hjoined.symm (fun k p hk => ?_) k
      rw [Nat.zero_add]
      exact h.2 k p hk

omit [DecidableEq α] in
theorem length_joinWith (hvec : vec ≠ []) (delim : α) (delims : List α) :
    (joinWith [] vec (charDelims delim delims)).length + 1 = vec.flatten.length + vec.length := by
  obtain ⟨item, rest, rfl⟩ := List.exists_cons_of_ne_nil hvec
  rw [joinWith_cons, List.nil_append, List.length_append, length_joinedFrom, List.flatten_cons,
    List.length_append, List.length_cons]
  omega

theorem joinable_of_rejoins (h : Rejoins vec delim delims) : Joinable vec delim delims := by
  obtain ⟨n, pieces, hsplit, htexts⟩ := h
  by_cases hvec : vec = []
  · rw [hvec]
    exact ⟨by simp, fun i p hp => by cases hp⟩
  · have hlength := length_joinWith hvec delim delims
    generalize hS : ofChars (joinWith [] vec (charDelims delim delims)) delim delims = S at *
    have hstrLength : S.str.length + 1 = vec.flatten.length + vec.length := by
      rw [← hS]
      exact hlength
    have hchars : S.CharDelims := hS ▸ charDelims_ofChars _ delim delims
    have hdelims : ∀ i, S.onDelimiter i = [delimChar delim delims i] :=
      hS ▸ onDelimiter_ofChars_at _ delim delims
    have hstr : S.str ≠ [] := by
      intro hnil
      have hmore := split_mono hsplit (Nat.le_succ n)
      rw [split_of_nil hnil] at hmore
      cases hmore
      exact hvec htexts.symm
    -- what has been yielded twice would be too long for the joined text
    have hfinish : S.finish 0 0 ≠ 0 := by
      intro hzero
      have hcollect := hsplit
      rw [split, beginIter_eq hstr] at hcollect
      have hlong := (weight_of_collect hchars (Nat.zero_le _) hstr hcollect).2 hzero
      rw [weight, List.flatMap_def, htexts, ← List.length_map (f := S.text), htexts] at hlong
      omega
    obtain ⟨m, pieces', hsplit', hpieces⟩ := yieldsPieces_of_ne_zero hchars hstr hfinish
    have hsame : pieces' = pieces := by
      have hleft := split_mono hsplit (Nat.le_max_left n m)
      rw [split_mono hsplit' (Nat.le_max_right n m)] at hleft
      exact Option.some.inj hleft
    have hat : ∀ k : ℕ, vec[k]? = (S.pieceAt k).map S.text := by
      intro k
      rw [← hpieces k, hsame, ← htexts, List.getElem?_map]
    constructor
    · intro hhead
      have hfirst := hat 0
      rw [← List.head?_eq_getElem?, hhead, pieceAt, pieceFrom, Option.map_some,
        Option.some.injEq] at hfirst
      have hzero := length_text_pieceTo S 0 (Nat.zero_le _)
      rw [← hfirst] at hzero
      exact hfinish hzero.symm
    · intro i p hp
      rw [hat i, Option.map_eq_some_iff] at hp
      obtain ⟨piece, hpiece, rfl⟩ := hp
      have hmem := not_mem_text_pieceFrom hdelims (Nat.zero_le _) i hpiece
      rwa [Nat.zero_add] at hmem

end Rejoining

/-- Joining and splitting with the same characters give the strings back if and only if no string
has the delimiter behind it, the last one its own too, and the first is not empty. -/
theorem rejoins_iff (vec : List (List α)) (delim : α) (delims : List α) :
    Rejoins vec delim delims ↔ Joinable vec delim delims :=
  ⟨joinable_of_rejoins, rejoins_of_joinable⟩

end BasicSplitter

end Webpp.Text.Splits
