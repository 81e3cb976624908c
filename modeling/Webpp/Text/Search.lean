import Mathlib.Data.List.TakeDrop

/-!
# Searches in texts

The searches of a string view and its parts. A search gives the first or the last place of a
character, and a part is given by two places; where the second place is in front of the first
one, the length of the part wraps and the part goes to the end.
-/

namespace Webpp.Text

variable {text : List Char} {c : Char}

/-- `substr(start, stop - start)`. -/
def span (text : List Char) (start stop : ℕ) : List Char :=
  if stop < start then text.drop start else (text.drop start).take (stop - start)

/-- `find_first_of(chars)`. -/
def findFirstOf (chars text : List Char) : Option ℕ := text.findIdx? fun c => chars.contains c

/-- `find_first_of(c, start)`. -/
def findFrom (c : Char) (start : ℕ) (text : List Char) : Option ℕ :=
  (findFirstOf [c] (text.drop start)).map (· + start)

/-- `find_last_of(chars)`. -/
def findLastOf (chars text : List Char) : Option ℕ :=
  (findFirstOf chars text.reverse).map fun i => text.length - 1 - i

/-! ## The first place -/

section First

variable {chars text : List Char} {i : ℕ}

theorem getElem?_of_findFirstOf (h : findFirstOf chars text = some i) :
    ∃ c, text[i]? = some c ∧ c ∈ chars := by
  rw [findFirstOf, List.findIdx?_eq_some_iff_getElem] at h
  obtain ⟨hi, hc, -⟩ := h
  exact ⟨text[i], List.getElem?_eq_getElem hi, List.contains_iff_mem.mp hc⟩

theorem findFirstOf_eq_none_iff : findFirstOf chars text = none ↔ ∀ c ∈ text, c ∉ chars := by
  rw [findFirstOf, List.findIdx?_eq_none_iff]
  simp

theorem le_of_findFirstOf {j : ℕ} (h : findFirstOf chars text = some i)
    (hj : text[j]? = some c) (hc : c ∈ chars) : i ≤ j := by
  by_contra hlt
  rw [findFirstOf, List.findIdx?_eq_some_iff_getElem] at h
  obtain ⟨hi, -, hfirst⟩ := h
  obtain ⟨hjl, rfl⟩ := List.getElem?_eq_some_iff.mp hj
  exact hfirst j (Nat.lt_of_not_le hlt) (List.contains_iff_mem.mpr hc)

theorem lt_of_findFirstOf (h : findFirstOf chars text = some i) : i < text.length := by
  obtain ⟨c, hc, -⟩ := getElem?_of_findFirstOf h
  exact (List.getElem?_eq_some_iff.mp hc).1

theorem findFirstOf_cons (chars : List Char) (x : Char) (text : List Char) :
    findFirstOf chars (x :: text) =
      if x ∈ chars then some 0 else (findFirstOf chars text).map (· + 1) := by
  rw [findFirstOf, List.findIdx?_cons]
  simp only [List.contains_iff_mem]
  rfl

theorem findFirstOf_append_of_none {pre post : List Char} (hpre : ∀ x ∈ pre, x ∉ chars) :
    findFirstOf chars (pre ++ post) = (findFirstOf chars post).map (· + pre.length) := by
  have hnone : pre.findIdx? (fun x => chars.contains x) = none := findFirstOf_eq_none_iff.mpr hpre
  rw [findFirstOf, List.findIdx?_append, hnone, Option.none_or, findFirstOf]

theorem findFirstOf_append_cons {pre post : List Char} (hpre : ∀ x ∈ pre, x ∉ chars)
    (hc : c ∈ chars) : findFirstOf chars (pre ++ c :: post) = some pre.length := by
  rw [findFirstOf_append_of_none hpre, findFirstOf_cons, if_pos hc, Option.map_some, Nat.zero_add]

theorem exists_of_findFirstOf (h : findFirstOf chars text = some i) :
    ∃ pre c post, text = pre ++ c :: post ∧ pre.length = i ∧ c ∈ chars ∧
      ∀ x ∈ pre, x ∉ chars := by
  obtain ⟨c, hc, hmem⟩ := getElem?_of_findFirstOf h
  obtain ⟨hi, hget⟩ := List.getElem?_eq_some_iff.mp hc
  refine ⟨text.take i, c, text.drop (i + 1), ?_, List.length_take_of_le (Nat.le_of_lt hi), hmem, ?_⟩
  · rw [← hget, List.cons_getElem_drop_succ, List.take_append_drop]
  · intro x hx hxc
    obtain ⟨j, hj⟩ := List.mem_iff_getElem?.mp hx
    have hji := (List.getElem?_eq_some_iff.mp hj).1
    rw [List.length_take_of_le (Nat.le_of_lt hi)] at hji
    rw [List.getElem?_take_of_lt hji] at hj
    exact Nat.not_lt.mpr (le_of_findFirstOf h hj hxc) hji

theorem findFirstOf_take (chars text : List Char) (k : ℕ) :
    findFirstOf chars (text.take k) = (findFirstOf chars text).filter (· < k) := by
  rw [findFirstOf, List.findIdx?_take, findFirstOf]
  cases text.findIdx? _ with
  | none => rfl
  | some i => simp [Option.guard, Option.filter]

theorem findFirstOf_pair (c d : Char) (text : List Char) :
    findFirstOf [c, d] text =
      Option.merge min (findFirstOf [c] text) (findFirstOf [d] text) := by
  induction text with
  | nil => rfl
  | cons x text ih =>
      rw [findFirstOf_cons, findFirstOf_cons, findFirstOf_cons, ih]
      by_cases hc : x = c
      · rw [if_pos (by simp [hc]), if_pos (List.mem_singleton.mpr hc)]
        cases (if x ∈ [d] then some 0 else (findFirstOf [d] text).map (· + 1)) with
        | none => rfl
        | some j => exact congrArg some (Nat.zero_min j).symm
      · rw [if_neg (mt List.mem_singleton.mp hc)]
        by_cases hd : x = d
        · rw [if_pos (by simp [hd]), if_pos (List.mem_singleton.mpr hd)]
          cases findFirstOf [c] text with
          | none => rfl
          | some i => exact congrArg some (Nat.min_zero _).symm
        · rw [if_neg (by simp [hc, hd]), if_neg (mt List.mem_singleton.mp hd)]
          cases findFirstOf [c] text with
          | none => cases findFirstOf [d] text <;> rfl
          | some i =>
              cases findFirstOf [d] text with
              | none => rfl
              | some j => exact congrArg some (Nat.add_min_add_right i j 1).symm

end First

theorem getElem?_of_findFrom {start i : ℕ}
    (h : findFrom c start text = some i) : start ≤ i ∧ text[i]? = some c := by
  rw [findFrom, Option.map_eq_some_iff] at h
  obtain ⟨j, hj, rfl⟩ := h
  obtain ⟨d, hd, hmem⟩ := getElem?_of_findFirstOf hj
  rw [List.getElem?_drop, List.mem_singleton.mp hmem, Nat.add_comm] at hd
  exact ⟨Nat.le_add_left _ _, hd⟩

theorem le_of_findFrom {start i j : ℕ}
    (h : findFrom c start text = some i) (hstart : start ≤ j) (hj : text[j]? = some c) :
    i ≤ j := by
  rw [findFrom, Option.map_eq_some_iff] at h
  obtain ⟨k, hk, rfl⟩ := h
  have hdrop : (text.drop start)[j - start]? = some c := by
    rw [List.getElem?_drop, Nat.add_sub_cancel' hstart, hj]
  exact Nat.add_le_of_le_sub hstart (le_of_findFirstOf hk hdrop (List.mem_singleton_self c))

theorem findFrom_eq_none_iff {start : ℕ} :
    findFrom c start text = none ↔ c ∉ text.drop start := by
  rw [findFrom, Option.map_eq_none_iff, findFirstOf_eq_none_iff]
  constructor
  · intro h hc
    exact h c hc (List.mem_singleton_self c)
  · intro h x hx hxc
    rw [List.mem_singleton.mp hxc] at hx
    exact h hx

theorem findFrom_append_cons {start : ℕ} {pre post : List Char}
    (hstart : start ≤ pre.length) (hc : c ∉ pre) :
    findFrom c start (pre ++ c :: post) = some pre.length := by
  have hat : (pre ++ c :: post)[pre.length]? = some c := by
    rw [List.getElem?_append_right (Nat.le_refl _), Nat.sub_self, List.getElem?_cons_zero]
  cases hfirst : findFrom c start (pre ++ c :: post) with
  | none =>
      rw [findFrom_eq_none_iff, List.drop_append_of_le_length hstart] at hfirst
      exact absurd (by simp) hfirst
  | some j =>
      have hle := le_of_findFrom hfirst hstart hat
      obtain ⟨-, hj⟩ := getElem?_of_findFrom hfirst
      have hge : ¬ j < pre.length := by
        intro hlt
        rw [List.getElem?_append_left hlt] at hj
        exact hc (List.mem_of_getElem? hj)
      congr 1
      omega

theorem findFrom_take (c : Char) (start : ℕ) (text : List Char) (k : ℕ) :
    findFrom c start (text.take k) = (findFrom c start text).filter (· < k) := by
  rw [findFrom, List.drop_take, findFirstOf_take, findFrom]
  cases findFirstOf [c] (text.drop start) with
  | none => rfl
  | some i => grind

/-! ## The last place -/

theorem findLastOf_eq_none_iff {chars text : List Char} :
    findLastOf chars text = none ↔ ∀ c ∈ text, c ∉ chars := by
  rw [findLastOf, Option.map_eq_none_iff, findFirstOf_eq_none_iff]
  simp only [List.mem_reverse]

theorem findLastOf_append_cons {chars pre post : List Char} (hc : c ∈ chars)
    (hpost : ∀ x ∈ post, x ∉ chars) : findLastOf chars (pre ++ c :: post) = some pre.length := by
  have hreverse : (pre ++ c :: post).reverse = post.reverse ++ c :: pre.reverse := by simp
  have hout : ∀ x ∈ post.reverse, x ∉ chars := fun x hx => hpost x (List.mem_reverse.mp hx)
  rw [findLastOf, hreverse, findFirstOf_append_cons hout hc, Option.map_some,
    List.length_reverse, List.length_append, List.length_cons]
  congr 1
  omega

theorem exists_of_findLastOf {chars text : List Char} {i : ℕ} (h : findLastOf chars text = some i) :
    ∃ pre c post, text = pre ++ c :: post ∧ pre.length = i ∧ c ∈ chars ∧
      ∀ x ∈ post, x ∉ chars := by
  rw [findLastOf, Option.map_eq_some_iff] at h
  obtain ⟨j, hj, rfl⟩ := h
  obtain ⟨pre, c, post, htext, rfl, hc, hout⟩ := exists_of_findFirstOf hj
  rw [List.reverse_eq_iff] at htext
  refine ⟨post.reverse, c, pre.reverse, ?_, ?_, hc, fun x hx => hout x (List.mem_reverse.mp hx)⟩
  · rw [htext]
    simp
  · rw [htext]
    simp

/-! ## Parts -/

theorem span_length {start : ℕ} (h : start ≤ text.length) :
    span text start text.length = text.drop start := by
  rw [span, if_neg (Nat.not_lt.mpr h), ← List.length_drop, List.take_length]

theorem span_append (pre part post : List Char) :
    span (pre ++ (part ++ post)) pre.length (pre ++ part).length = part := by
  rw [span, List.length_append, if_neg (by omega), List.drop_left, Nat.add_sub_cancel_left,
    List.take_left]

/-- A part that does not end the text is cut at its end only. -/
theorem span_eq_iff {text pre part post : List Char} {stop : ℕ}
    (htext : text = pre ++ (part ++ post)) (hpost : post ≠ []) :
    span text pre.length stop = part ↔ stop = (pre ++ part).length := by
  have hpos : 0 < post.length := List.length_pos_iff.mpr hpost
  constructor
  · intro h
    have hlength := congrArg List.length h
    rw [htext, span] at hlength
    split at hlength
    · rw [List.drop_left, List.length_append] at hlength
      omega
    · rw [List.drop_left, List.length_take, List.length_append] at hlength
      rw [List.length_append]
      omega
  · rintro rfl
    rw [htext, span_append]

theorem getElem?_of_span {start stop i : ℕ}
    (h : (span text start stop)[i]? = some c) : text[start + i]? = some c := by
  rw [span] at h
  split at h
  · rwa [List.getElem?_drop] at h
  · rw [List.getElem?_take] at h
    split at h
    · rwa [List.getElem?_drop] at h
    · cases h

end Webpp.Text
