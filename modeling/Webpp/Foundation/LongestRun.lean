import Mathlib.Data.Nat.Notation

/-!
# Longest runs

A run is a part of a list all of whose elements have a property. A pass over the list knows the
run in which it is and the longest run so far; where a run that is as long replaces the one
before it, the pass ends with the last of the longest runs.
-/

namespace Webpp.LongestRun

variable {α : Type*} {p : α → Prop} {xs : List α} {x : α} {start count k n j : ℕ}

/-- So many elements from `start` on have the property. -/
def IsRun (p : α → Prop) (xs : List α) (start count : ℕ) : Prop :=
  ∀ i, start ≤ i → i < start + count → ∃ x, xs[i]? = some x ∧ p x

/-- The run at the end is a run, and no run at the end is longer. -/
structure EndRun (p : α → Prop) (xs : List α) (j : ℕ) : Prop where
  le : j ≤ xs.length
  isRun : IsRun p xs (xs.length - j) j
  longest : ∀ start count, IsRun p xs start count → start + count = xs.length → count ≤ j

/-- No run is longer, and no run that is as long is in front of it. -/
structure FirstLongest (p : α → Prop) (xs : List α) (k n : ℕ) : Prop where
  pos : 1 ≤ n
  isRun : IsRun p xs k n
  longest : ∀ start count, 1 ≤ count → IsRun p xs start count →
    count ≤ n ∧ (count = n → k ≤ start)

/-- No run is longer, and no run that is as long is behind it. -/
structure LastLongest (p : α → Prop) (xs : List α) (k n : ℕ) : Prop where
  pos : 1 ≤ n
  isRun : IsRun p xs k n
  longest : ∀ start count, 1 ≤ count → IsRun p xs start count →
    count ≤ n ∧ (count = n → start ≤ k)

theorem IsRun.le_length (h : IsRun p xs start count) (hpos : 1 ≤ count) :
    start + count ≤ xs.length := by
  obtain ⟨x, hx, -⟩ := h (start + count - 1) (by omega) (by omega)
  have hlt := (List.getElem?_eq_some_iff.mp hx).1
  omega

theorem isRun_zero (p : α → Prop) (xs : List α) (start : ℕ) : IsRun p xs start 0 := by
  intro i hi hlt
  omega

theorem IsRun.concat (h : IsRun p xs start count) (x : α) : IsRun p (xs ++ [x]) start count := by
  intro i hi hlt
  obtain ⟨y, hy, hp⟩ := h i hi hlt
  exact ⟨y, by rw [List.getElem?_append_left (List.getElem?_eq_some_iff.mp hy).1, hy], hp⟩

theorem IsRun.of_concat (h : IsRun p (xs ++ [x]) start count) (hle : start + count ≤ xs.length) :
    IsRun p xs start count := by
  intro i hi hlt
  obtain ⟨y, hy, hp⟩ := h i hi hlt
  exact ⟨y, by rw [← hy, List.getElem?_append_left (by omega)], hp⟩

theorem IsRun.of_concat_last (h : IsRun p (xs ++ [x]) start (count + 1))
    (hlast : start + count = xs.length) : p x ∧ IsRun p xs start count := by
  refine ⟨?_, fun i hi hlt => ?_⟩
  · obtain ⟨y, hy, hp⟩ := h xs.length (by omega) (by omega)
    rw [List.getElem?_concat_length, Option.some_inj] at hy
    exact hy ▸ hp
  · obtain ⟨y, hy, hp⟩ := h i hi (by omega)
    exact ⟨y, by rw [← hy, List.getElem?_append_left (by omega)], hp⟩

/-! ## The run at the end -/

theorem endRun_nil (p : α → Prop) : EndRun p [] 0 where
  le := Nat.le_refl 0
  isRun := isRun_zero p [] _
  longest start count _ h := by rw [List.length_nil] at h; omega

theorem EndRun.concat (h : EndRun p xs j) (hx : p x) : EndRun p (xs ++ [x]) (j + 1) where
  le := by rw [List.length_append, List.length_singleton]; have := h.le; omega
  isRun := by
    intro i hi hlt
    rw [List.length_append, List.length_singleton] at hi hlt
    have hle := h.le
    by_cases hlast : i = xs.length
    · exact ⟨x, by rw [hlast, List.getElem?_concat_length], hx⟩
    · exact (h.isRun.concat x) i (by omega) (by omega)
  longest start count hrun hend := by
    rw [List.length_append, List.length_singleton] at hend
    cases count with
    | zero => omega
    | succ count =>
      have hle := h.longest start count (hrun.of_concat_last (by omega)).2 (by omega)
      omega

theorem endRun_concat_of_not (xs : List α) (hx : ¬ p x) : EndRun p (xs ++ [x]) 0 where
  le := Nat.zero_le _
  isRun := isRun_zero p _ _
  longest start count hrun hend := by
    rw [List.length_append, List.length_singleton] at hend
    cases count with
    | zero => exact Nat.le_refl 0
    | succ count => exact absurd (hrun.of_concat_last (by omega)).1 hx

/-! ## The longest run -/

theorem IsRun.concat_cases (h : IsRun p (xs ++ [x]) start count) (hpos : 1 ≤ count) :
    IsRun p xs start count ∨
      (p x ∧ start + count = xs.length + 1 ∧ IsRun p xs start (count - 1)) := by
  have hle := h.le_length hpos
  rw [List.length_append, List.length_singleton] at hle
  by_cases hlast : start + count ≤ xs.length
  · exact Or.inl (h.of_concat hlast)
  · obtain ⟨m, rfl⟩ : ∃ m, count = m + 1 := ⟨count - 1, by omega⟩
    obtain ⟨hx, hrun⟩ := h.of_concat_last (by omega)
    exact Or.inr ⟨hx, by omega, hrun⟩

/-- The run at the end becomes the longest one, when the runs so far are not longer. -/
theorem EndRun.lastLongest (h : EndRun p xs j) (hx : p x)
    (hold : ∀ start count, 1 ≤ count → IsRun p xs start count → count ≤ j + 1) :
    LastLongest p (xs ++ [x]) (xs.length - j) (j + 1) where
  pos := by omega
  isRun := by
    have hrun := (h.concat hx).isRun
    rwa [List.length_append, List.length_singleton, Nat.add_sub_add_right] at hrun
  longest start count hpos hrun := by
    obtain hrun | ⟨-, hend, hrun⟩ := hrun.concat_cases hpos
    · have hle := hold start count hpos hrun
      have hlength := hrun.le_length hpos
      omega
    · have hle := h.longest start (count - 1) hrun (by omega)
      omega

/-- The longest run stays, when the run at the end is shorter. -/
theorem LastLongest.concat (h : LastLongest p xs k n) (hend : EndRun p xs j)
    (hx : p x → j + 1 < n) : LastLongest p (xs ++ [x]) k n where
  pos := h.pos
  isRun := h.isRun.concat x
  longest start count hpos hrun := by
    obtain hrun | ⟨hp, hlast, hrun⟩ := hrun.concat_cases hpos
    · exact h.longest start count hpos hrun
    · have hle := hend.longest start (count - 1) hrun (by omega)
      have hlt := hx hp
      omega

theorem LastLongest.unique {k' n' : ℕ} (h : LastLongest p xs k n) (h' : LastLongest p xs k' n') :
    k = k' ∧ n = n' := by
  have hle := h.longest k' n' h'.pos h'.isRun
  have hle' := h'.longest k n h.pos h.isRun
  omega

end Webpp.LongestRun
