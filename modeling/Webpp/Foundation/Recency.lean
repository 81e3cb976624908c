import Mathlib.Data.List.Nodup
import Mathlib.Data.List.Pairwise
import Mathlib.Data.List.TakeDrop

/-!
# Lists of keys in order of last use

`touch k l` moves the key `k` to the front of `l`, so that a list built by
`touch` names each key once, the most recently used first. A cache of capacity
`n` that evicts the least recently used key holds the first `n` keys of it.
-/

namespace Recency

variable {κ : Type*} [DecidableEq κ] {l : List κ} {k x : κ}

/-- Use the key `k`: it becomes the first of the list. -/
def touch (k : κ) (l : List κ) : List κ := k :: l.filter (· ≠ k)

@[simp] theorem mem_touch :
    x ∈ touch k l ↔ x = k ∨ x ∈ l := by
  by_cases h : x = k <;> simp [touch, h]

theorem nodup_touch {k : κ} (h : l.Nodup) : (touch k l).Nodup := by
  refine List.nodup_cons.mpr ⟨?_, h.filter _⟩
  simp

/-- A relation between the keys of a list, each with the later ones, is kept by
`touch` when the key used has it with all the others. -/
theorem pairwise_touch {R : κ → κ → Prop} {k : κ}
    (hk : ∀ x ∈ l, x ≠ k → R k x) (h : (l.filter (· ≠ k)).Pairwise R) :
    (touch k l).Pairwise R := by
  refine List.pairwise_cons.mpr ⟨?_, h⟩
  intro x hx
  rw [List.mem_filter, decide_eq_true_iff] at hx
  exact hk x hx.1 hx.2

/-- Dropping one key from a list moves the others forward by one place at most. -/
theorem mem_take_succ_of_mem_take_filter (h : l.Nodup) {n : ℕ}
    (hx : x ∈ (l.filter (· ≠ k)).take n) : x ∈ l.take (n + 1) := by
  induction l generalizing n with
  | nil => simp at hx
  | cons a l ih =>
      obtain ⟨ha, hl⟩ := List.nodup_cons.mp h
      by_cases hak : a = k
      · have hsame : (a :: l).filter (· ≠ k) = l := by
          rw [List.filter_cons_of_neg (by simp [hak]), List.filter_eq_self]
          intro y hy
          simpa using fun hyk => ha (by rwa [hak, ← hyk])
        rw [hsame] at hx
        exact List.mem_cons_of_mem a hx
      · rw [List.filter_cons_of_pos (by simp [hak])] at hx
        cases n with
        | zero => simp at hx
        | succ m =>
            rcases List.mem_cons.mp hx with rfl | hx
            · exact List.mem_cons_self
            · exact List.mem_cons_of_mem a (ih hl hx)

theorem mem_take_filter_of_mem_take (h : l.Nodup) {n : ℕ}
    (hk : k ∈ l.take (n + 1)) (hx : x ∈ l.take (n + 1)) (hne : x ≠ k) :
    x ∈ (l.filter (· ≠ k)).take n := by
  induction l generalizing n with
  | nil => simp at hx
  | cons a l ih =>
      obtain ⟨ha, hl⟩ := List.nodup_cons.mp h
      rw [List.take_succ_cons, List.mem_cons] at hk hx
      by_cases hak : a = k
      · have hsame : (a :: l).filter (· ≠ k) = l := by
          rw [List.filter_cons_of_neg (by simp [hak]), List.filter_eq_self]
          intro y hy
          simpa using fun hyk => ha (by rwa [hak, ← hyk])
        rw [hsame]
        exact hx.resolve_left fun hxa => hne (hxa.trans hak)
      · have hk' : k ∈ l.take n := hk.resolve_left fun hka => hak hka.symm
        rw [List.filter_cons_of_pos (by simp [hak])]
        cases n with
        | zero => simp at hk'
        | succ m =>
            rw [List.take_succ_cons, List.mem_cons]
            exact hx.imp_right (ih hl hk')

/-- A use of one of the first `n` keys leaves the same keys in the first `n`
places. -/
theorem mem_take_touch (h : l.Nodup) {n : ℕ}
    (hk : k ∈ l.take n) : x ∈ (touch k l).take n ↔ x ∈ l.take n := by
  cases n with
  | zero => simp at hk
  | succ n =>
      rw [touch, List.take_succ_cons, List.mem_cons]
      constructor
      · rintro (rfl | hx)
        · exact hk
        · exact mem_take_succ_of_mem_take_filter h hx
      · intro hx
        by_cases hne : x = k
        · exact Or.inl hne
        · exact Or.inr (mem_take_filter_of_mem_take h hk hx hne)

omit [DecidableEq κ] in
/-- In a list on which `f` strictly decreases from at most `N`, the `i`-th value
is at most `N - i`. -/
theorem add_index_le_of_pairwise {f : κ → ℕ} {N : ℕ}
    (h : l.Pairwise fun x y => f y < f x) (hN : ∀ x ∈ l, f x ≤ N) {i : ℕ}
    (hi : i < l.length) : f l[i] + i ≤ N := by
  induction i with
  | zero => exact hN _ (List.getElem_mem hi)
  | succ i ih =>
      have hlt := List.pairwise_iff_getElem.mp h i (i + 1) (by omega) hi (by omega)
      have hle := ih (by omega)
      omega

/-- `x` was used more recently than `y`. -/
def Before (l : List κ) (x y : κ) : Prop := l.idxOf x < l.idxOf y

/-- In a list sorted by `R`, the one of two keys that `R` does not put after the
other comes first. -/
theorem before_of_pairwise {R : κ → κ → Prop} (h : l.Pairwise R)
    {x y : κ} (hx : x ∈ l) (hy : y ∈ l) (hne : x ≠ y) (hR : ¬ R y x) :
    Before l x y := by
  by_contra hlt
  have hlt' : l.idxOf y < l.idxOf x := by
    refine Nat.lt_of_le_of_ne (Nat.not_lt.mp hlt) ?_
    intro heq
    exact hne (List.idxOf_inj hx |>.mp heq.symm)
  have hpair := List.pairwise_iff_getElem.mp h _ _ (List.idxOf_lt_length_iff.mpr hy)
    (List.idxOf_lt_length_iff.mpr hx) hlt'
  rw [List.getElem_idxOf, List.getElem_idxOf] at hpair
  exact hR hpair

end Recency
