import Webpp.Uri.Punycodes
import Mathlib.Data.List.GetD
import Mathlib.Data.List.Induction
import Mathlib.Data.List.TakeWhile

/-!
# `sort_unique_values`

The array is sorted in its place. Behind the sorted values it keeps as many stale values as
duplicates were found, and a stale value is always one of the sorted ones.
-/

namespace Webpp.Uri.Punycodes

variable {smaller larger rest : List ℕ} {key : ℕ}

theorem getD_append_length (xs ys : List ℕ) (x : ℕ) : (xs ++ x :: ys).getD xs.length 0 = x := by
  rw [List.getD_append_right _ _ _ _ (le_refl _), Nat.sub_self]
  rfl

/-- The smaller values come before the place of `key`. -/
theorem sortPlace_eq (hsmaller : ∀ x ∈ smaller, x < key) (hlarger : ∀ x ∈ larger, key ≤ x) :
    sortPlace (smaller ++ (larger ++ rest)) key (smaller.length + larger.length) =
      smaller.length := by
  induction larger using List.reverseRecOn generalizing rest with
  | nil =>
      cases smaller using List.reverseRecOn with
      | nil => rfl
      | append_singleton smaller x =>
          have hx : x < key := hsmaller x (List.mem_append_right _ (List.mem_singleton_self x))
          rw [List.length_nil, Nat.add_zero, List.length_append, List.length_singleton, sortPlace,
            List.append_assoc, List.singleton_append, getD_append_length, if_neg (Nat.not_le.2 hx)]
  | append_singleton larger x ih =>
      have hx : key ≤ x := hlarger x (List.mem_append_right _ (List.mem_singleton_self x))
      have hget : (smaller ++ (larger ++ [x] ++ rest)).getD (smaller.length + larger.length) 0 = x := by
        rw [List.append_assoc, ← List.append_assoc, ← List.length_append, List.singleton_append,
          getD_append_length]
      rw [List.length_append, List.length_singleton, ← Nat.add_assoc, sortPlace, hget, if_pos hx,
        List.append_assoc]
      apply ih
      intro y hy
      exact hlarger y (List.mem_append_left _ hy)

/-- The values from the place of `key` on move up, over the next slot of the array. -/
theorem moveUp_set (x slot : ℕ) :
    (moveUp (smaller ++ x :: (larger ++ slot :: rest)) smaller.length (larger.length + 1)).set
      smaller.length key = smaller ++ key :: x :: (larger ++ rest) := by
  have hfirst : (smaller ++ x :: (larger ++ slot :: rest)).take (smaller.length + 1) =
      smaller ++ [x] := by
    rw [List.take_length_add_append]
    rfl
  have hmoved : ((smaller ++ x :: (larger ++ slot :: rest)).drop smaller.length).take
      (larger.length + 1) = x :: larger := by
    rw [List.drop_left, List.take_succ_cons, List.take_left]
  have hlast : (smaller ++ x :: (larger ++ slot :: rest)).drop
      (smaller.length + 1 + (larger.length + 1)) = rest := by
    rw [Nat.add_assoc, List.drop_length_add_append, Nat.add_comm 1, List.drop_succ_cons,
      List.drop_length_add_append]
    rfl
  rw [moveUp, hfirst, hmoved, hlast, List.append_assoc, List.append_assoc,
    List.set_append_right _ _ (le_refl _), Nat.sub_self]
  rfl

/-- The values in `seen` are sorted, the ones in `todo` are not. -/
def Sorting (seen todo : List ℕ) (s : List ℕ × ℕ) : Prop :=
  ∃ unique stale, s.1 = unique ++ stale ++ todo ∧ s.2 = stale.length ∧
    unique.length + stale.length = seen.length ∧ unique.Pairwise (· < ·) ∧
    (∀ x, x ∈ unique ↔ x ∈ seen) ∧ ∀ x ∈ stale, x ∈ unique

theorem exists_split {unique : List ℕ} (h : unique.Pairwise (· < ·)) (key : ℕ) :
    ∃ smaller larger, unique = smaller ++ larger ∧ (∀ x ∈ smaller, x < key) ∧
      ∀ x ∈ larger, key ≤ x := by
  refine ⟨unique.takeWhile (· < key), unique.dropWhile (· < key),
    (List.takeWhile_append_dropWhile).symm, ?_, ?_⟩
  · intro x hx
    simpa using List.mem_takeWhile_imp hx
  · intro x hx
    cases hdrop : unique.dropWhile (· < key) with
    | nil =>
        rw [hdrop] at hx
        cases hx
    | cons y larger =>
        have hy : ¬y < key := by
          have := List.head_dropWhile_not (· < key) (l := unique) (by rw [hdrop]; simp)
          simpa [hdrop] using this
        have hsorted : (y :: larger).Pairwise (· < ·) := by
          rw [← hdrop]
          exact h.sublist (List.dropWhile_sublist _)
        rw [hdrop] at hx
        rcases List.mem_cons.1 hx with rfl | hx
        · exact Nat.not_lt.1 hy
        · exact Nat.le_trans (Nat.not_lt.1 hy) (Nat.le_of_lt (List.rel_of_pairwise_cons hsorted hx))

theorem pairwise_insert (smaller larger : List ℕ) {key : ℕ}
    (hsorted : (smaller ++ larger).Pairwise (· < ·))
    (hsmaller : ∀ x ∈ smaller, x < key) (hlarger : ∀ x ∈ larger, key < x) :
    (smaller ++ key :: larger).Pairwise (· < ·) := by
  rw [List.pairwise_append] at hsorted ⊢
  obtain ⟨h₁, h₂, h₃⟩ := hsorted
  refine ⟨h₁, List.pairwise_cons.2 ⟨hlarger, h₂⟩, ?_⟩
  intro x hx y hy
  rcases List.mem_cons.1 hy with rfl | hy
  · exact hsmaller x hx
  · exact h₃ x hx y hy

theorem mem_insert_iff (smaller larger : List ℕ) (key : ℕ) {seen : List ℕ}
    (hmem : ∀ x, x ∈ smaller ++ larger ↔ x ∈ seen) (x : ℕ) :
    x ∈ smaller ++ key :: larger ↔ x ∈ seen ++ [key] := by
  rw [List.mem_append, List.mem_cons, List.mem_append, List.mem_singleton, ← hmem x,
    List.mem_append]
  tauto

section Rounds

variable {seen todo unique stale : List ℕ}

theorem Sorting.inserted (hlength : (smaller ++ larger).length + stale.length = seen.length)
    (hsorted : (smaller ++ larger).Pairwise (· < ·)) (hmem : ∀ x, x ∈ smaller ++ larger ↔ x ∈ seen)
    (hstale : ∀ x ∈ stale, x ∈ smaller ++ larger) (hsmaller : ∀ x ∈ smaller, x < key)
    (hlarger : ∀ x ∈ larger, key < x) :
    Sorting (seen ++ [key]) todo
      (smaller ++ key :: larger ++ (stale ++ [key]).tail ++ todo, stale.length) := by
  have hmem' := mem_insert_iff smaller larger key hmem
  have htail : (stale ++ [key]).tail.length = stale.length := by
    rw [List.length_tail, List.length_append, List.length_singleton, Nat.add_sub_cancel]
  refine ⟨smaller ++ key :: larger, (stale ++ [key]).tail, rfl, htail.symm, ?_,
    pairwise_insert _ _ hsorted hsmaller hlarger, hmem', ?_⟩
  · rw [List.length_append] at hlength
    rw [htail, List.length_append, List.length_append, List.length_cons, List.length_singleton]
    omega
  · intro x hx
    rcases List.mem_append.1 (List.mem_of_mem_tail hx) with hx | hx
    · exact (hmem' x).2 (List.mem_append_left _ ((hmem x).1 (hstale x hx)))
    · rw [List.mem_singleton.1 hx]
      exact List.mem_append_right _ List.mem_cons_self

theorem Sorting.duplicate (hlength : unique.length + stale.length = seen.length)
    (hsorted : unique.Pairwise (· < ·)) (hmem : ∀ x, x ∈ unique ↔ x ∈ seen)
    (hstale : ∀ x ∈ stale, x ∈ unique) (hfound : key ∈ unique) :
    Sorting (seen ++ [key]) todo (unique ++ stale ++ key :: todo, stale.length + 1) := by
  refine ⟨unique, stale ++ [key], ?_, ?_, ?_, hsorted, ?_, ?_⟩
  · simp
  · rw [List.length_append]
    rfl
  · rw [List.length_append, List.length_append, List.length_singleton, ← hlength, Nat.add_assoc]
  · intro x
    rw [hmem x, List.mem_append, List.mem_singleton]
    constructor
    · exact Or.inl
    · rintro (hx | rfl)
      · exact hx
      · exact (hmem _).1 hfound
  · intro x hx
    rcases List.mem_append.1 hx with hx | hx
    · exact hstale x hx
    · rw [List.mem_singleton.1 hx]
      exact hfound

/-- The values from the place of `key` on move up, over the first stale value or the slot of `key`
itself. -/
theorem moveUp_stale (x : ℕ) :
    (moveUp (smaller ++ x :: larger ++ stale ++ key :: todo) smaller.length (larger.length + 1)).set
      smaller.length key =
        smaller ++ key :: (x :: larger) ++ (stale ++ [key]).tail ++ todo := by
  cases stale with
  | nil =>
      rw [List.append_nil, List.append_assoc, List.cons_append, moveUp_set]
      simp
  | cons slot stale =>
      have hassoc : smaller ++ x :: larger ++ slot :: stale ++ key :: todo =
          smaller ++ x :: (larger ++ slot :: (stale ++ key :: todo)) := by simp
      rw [hassoc, moveUp_set]
      simp

theorem Sorting.step {s : List ℕ × ℕ} (h : Sorting seen (key :: todo) s) :
    Sorting (seen ++ [key]) todo (sortStep s seen.length) := by
  obtain ⟨array, duplicates⟩ := s
  obtain ⟨unique, stale, harray, rfl, hlength, hsorted, hmem, hstale⟩ := h
  dsimp only at harray
  subst harray
  obtain ⟨smaller, larger, rfl, hsmaller, hlarger⟩ := exists_split hsorted key
  have hkey : (smaller ++ larger ++ stale ++ key :: todo).getD seen.length 0 = key := by
    rw [← hlength, ← List.length_append, getD_append_length]
  have hplace : sortPlace (smaller ++ larger ++ stale ++ key :: todo) key
      (seen.length - stale.length) = smaller.length := by
    rw [← hlength, Nat.add_sub_cancel, List.length_append, List.append_assoc, List.append_assoc]
    exact sortPlace_eq hsmaller hlarger
  simp only [sortStep]
  rw [hkey, hplace]
  cases larger with
  | nil =>
      have hinserted : Sorting (seen ++ [key]) todo _ :=
        Sorting.inserted hlength hsorted hmem hstale hsmaller (by simp)
      rw [List.append_nil] at hstale hlength ⊢
      cases stale with
      | nil =>
          -- nothing was found twice, and the value is already at its place
          rw [if_pos (by simpa using hlength)]
          simpa using hinserted
      | cons slot stale =>
          -- the value takes the slot of a stale one, which is smaller
          have hslot : slot < key := hsmaller slot (hstale slot List.mem_cons_self)
          rw [List.length_cons] at hlength
          have hget : (smaller ++ slot :: stale ++ key :: todo).getD smaller.length 0 = slot := by
            rw [List.append_assoc, List.cons_append, getD_append_length]
          rw [if_neg (by omega), hget, if_neg (by omega), if_neg (by omega), List.append_assoc,
            List.cons_append, List.set_append_right _ _ (le_refl _), Nat.sub_self,
            List.set_cons_zero]
          simpa using hinserted
  | cons first larger =>
      have hget : (smaller ++ first :: larger ++ stale ++ key :: todo).getD smaller.length 0 =
          first := by
        rw [List.append_assoc, List.append_assoc, List.cons_append, getD_append_length]
      have hlength' := hlength
      rw [List.length_append, List.length_cons] at hlength'
      have hcount : seen.length - stale.length - smaller.length = larger.length + 1 := by omega
      rw [if_neg (by omega), hget]
      rcases Nat.lt_or_eq_of_le (hlarger first List.mem_cons_self) with hlt | rfl
      · have hlarger' : ∀ x ∈ first :: larger, key < x := by
          intro x hx
          rcases List.mem_cons.1 hx with rfl | hx
          · exact hlt
          · have hpair := (List.pairwise_append.1 hsorted).2.1
            exact Nat.lt_trans hlt (List.rel_of_pairwise_cons hpair hx)
        rw [if_pos hlt, hcount, moveUp_stale]
        exact Sorting.inserted hlength hsorted hmem hstale hsmaller hlarger'
      · rw [if_neg (Nat.lt_irrefl _), if_pos rfl]
        exact Sorting.duplicate hlength hsorted hmem hstale
          (List.mem_append_right _ List.mem_cons_self)

end Rounds

theorem Sorting.run {seen todo : List ℕ} {s : List ℕ × ℕ} (h : Sorting seen todo s) :
    Sorting (seen ++ todo) [] ((List.range' seen.length todo.length).foldl sortStep s) := by
  induction todo generalizing seen s with
  | nil =>
      rw [List.append_nil]
      exact h
  | cons key todo ih =>
      have hrun := ih h.step
      rw [List.append_assoc, List.singleton_append, List.length_append, List.length_singleton] at hrun
      rw [List.length_cons, List.range'_succ, List.foldl_cons]
      exact hrun

theorem sortUniqueValues_spec (array : List ℕ) :
    ∃ unique stale, sortUniqueValues array = unique ++ stale ∧ unique.Pairwise (· < ·) ∧
      ∀ x, x ∈ unique ↔ x ∈ array := by
  cases array with
  | nil => exact ⟨[], [], rfl, List.Pairwise.nil, fun _ => Iff.rfl⟩
  | cons first todo =>
      have hstart : Sorting [first] todo (first :: todo, 0) :=
        ⟨[first], [], rfl, rfl, rfl, List.pairwise_singleton _ _, fun _ => Iff.rfl, by simp⟩
      obtain ⟨unique, stale, harray, -, -, hsorted, hmem, -⟩ := hstart.run
      refine ⟨unique, stale, ?_, hsorted, hmem⟩
      rw [List.append_nil] at harray
      exact harray

end Webpp.Uri.Punycodes
