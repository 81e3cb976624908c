import Mathlib.Data.List.Induction
import Mathlib.Data.List.Sort

/-!
# Stable sorting by a key

A list that is sorted by a key is determined by its parts with equal keys. So the stable sort is
the only sorted list in which each of these parts has kept its order, and an insertion from behind,
which stops at the first element that is not greater, builds it element by element.
-/

namespace StableSort

section Sorting

variable {α κ : Type*} [LinearOrder κ] (key : α → κ)

/-- The stable sort of a list by a key. -/
def sortBy (l : List α) : List α := l.mergeSort (fun a b => key a ≤ key b)

/-- The elements with one key, in their order. -/
def withKey (k : κ) (l : List α) : List α := l.filter (fun a => key a = k)

variable {key}

theorem withKey_cons_of_eq {a : α} {k : κ} (h : key a = k) (l : List α) :
    withKey key k (a :: l) = a :: withKey key k l := List.filter_cons_of_pos (by simpa using h)

theorem withKey_cons_of_ne {a : α} {k : κ} (h : key a ≠ k) (l : List α) :
    withKey key k (a :: l) = withKey key k l := List.filter_cons_of_neg (by simpa using h)

theorem withKey_append (k : κ) (l l' : List α) :
    withKey key k (l ++ l') = withKey key k l ++ withKey key k l' := List.filter_append l l'

theorem sortBy_perm (l : List α) : (sortBy key l).Perm l := List.mergeSort_perm l _

@[simp] theorem sortBy_nil : sortBy key [] = [] := List.mergeSort_nil

theorem decide_trans (a b c : α) (hab : decide (key a ≤ key b) = true)
    (hbc : decide (key b ≤ key c) = true) : decide (key a ≤ key c) = true := by
  rw [decide_eq_true_eq] at hab hbc ⊢
  exact hab.trans hbc

theorem decide_total (a b : α) : (decide (key a ≤ key b) || decide (key b ≤ key a)) = true := by
  rw [Bool.or_eq_true, decide_eq_true_eq, decide_eq_true_eq]
  exact le_total _ _

theorem pairwise_sortBy (l : List α) : (sortBy key l).Pairwise (fun a b => key a ≤ key b) := by
  exact (List.pairwise_mergeSort decide_trans decide_total l).imp of_decide_eq_true

theorem withKey_sortBy (k : κ) (l : List α) : withKey key k (sortBy key l) = withKey key k l := by
  have hsub : (withKey key k l).Sublist (sortBy key l) := by
    apply List.sublist_mergeSort decide_trans decide_total _ List.filter_sublist
    apply List.pairwise_of_forall_mem_list
    intro a ha b hb
    have ha' := List.of_mem_filter ha
    have hb' := List.of_mem_filter hb
    rw [decide_eq_true_eq] at ha' hb' ⊢
    exact (ha'.trans hb'.symm).le
  have hfilter := hsub.filter (fun a => key a = k)
  rw [withKey, List.filter_filter] at hfilter
  simp only [Bool.and_self] at hfilter
  exact (hfilter.eq_of_length ((sortBy_perm l).filter _).length_eq.symm).symm

theorem eq_of_withKey {l₁ l₂ : List α} (h₁ : l₁.Pairwise (fun a b => key a ≤ key b))
    (h₂ : l₂.Pairwise (fun a b => key a ≤ key b)) (h : ∀ k, withKey key k l₁ = withKey key k l₂) :
    l₁ = l₂ := by
  have hmem : ∀ l l' : List α, (∀ k, withKey key k l = withKey key k l') → ∀ a ∈ l, a ∈ l' := by
    intro l l' h a ha
    have hfilter : a ∈ withKey key (key a) l := List.mem_filter.2 ⟨ha, by simp⟩
    rw [h] at hfilter
    exact (List.mem_filter.1 hfilter).1
  induction l₁ generalizing l₂ with
  | nil =>
      cases l₂ with
      | nil => rfl
      | cons b t₂ => exact absurd (hmem _ _ (fun k => (h k).symm) b List.mem_cons_self) (by simp)
  | cons a t₁ ih =>
      cases l₂ with
      | nil => exact absurd (hmem _ _ h a List.mem_cons_self) (by simp)
      | cons b t₂ =>
          have hle : ∀ {x y : α} {t : List α}, (y :: t).Pairwise (fun a b => key a ≤ key b) →
              x ∈ y :: t → key y ≤ key x := by
            intro x y t hpair hx
            rcases List.mem_cons.1 hx with rfl | hx
            · exact le_rfl
            · exact List.rel_of_pairwise_cons hpair hx
          have hba := hle h₂ (hmem _ _ h a List.mem_cons_self)
          have hab := hle h₁ (hmem _ _ (fun k => (h k).symm) b List.mem_cons_self)
          have hkey : key b = key a := le_antisymm hba hab
          have hhead := h (key a)
          rw [withKey_cons_of_eq rfl, withKey_cons_of_eq hkey, List.cons.injEq] at hhead
          obtain ⟨rfl, htail⟩ := hhead
          rw [ih h₁.of_cons h₂.of_cons]
          intro k
          by_cases hk : key a = k
          · rw [← hk]
            exact htail
          · have hk' := h k
            rw [withKey_cons_of_ne hk, withKey_cons_of_ne hk] at hk'
            exact hk'

/-! ## Insertion from behind -/

variable (key) in
/-- `c` is moved before the greater elements at the end of the list. -/
def insertBack (l : List α) (c : α) : List α :=
  (l.reverse.orderedInsert (fun c d => key d ≤ key c) c).reverse

@[simp] theorem insertBack_nil (c : α) : insertBack key [] c = [c] := rfl

theorem insertBack_concat_of_le {c d : α} (l : List α) (h : key d ≤ key c) :
    insertBack key (l ++ [d]) c = l ++ [d, c] := by
  rw [insertBack, List.reverse_concat, List.orderedInsert_cons, if_pos h]
  simp

theorem insertBack_concat_of_lt {c d : α} (l : List α) (h : key c < key d) :
    insertBack key (l ++ [d]) c = insertBack key l c ++ [d] := by
  rw [insertBack, List.reverse_concat, List.orderedInsert_cons, if_neg h.not_ge, insertBack,
    List.reverse_cons]

theorem insertBack_perm (l : List α) (c : α) : (insertBack key l c).Perm (l ++ [c]) := by
  have hperm := List.perm_orderedInsert (fun c d => key d ≤ key c) c l.reverse
  have hcons : (c :: l.reverse).Perm (l ++ [c]) :=
    ((List.reverse_perm l).cons c).trans (List.perm_append_singleton c l).symm
  exact (List.reverse_perm _).trans (hperm.trans hcons)

theorem withKey_insertBack (k : κ) (l : List α) (c : α) :
    withKey key k (insertBack key l c) = withKey key k (l ++ [c]) := by
  induction l using List.reverseRecOn with
  | nil => rfl
  | append_singleton l d ih =>
      by_cases h : key d ≤ key c
      · rw [insertBack_concat_of_le l h]
        simp
      · rw [insertBack_concat_of_lt l (not_le.1 h), withKey_append, ih]
        simp only [withKey_append, List.append_assoc]
        congr 1
        -- Only one of the two elements can have the key `k`.
        by_cases hd : key d = k
        · have hc : key c ≠ k := fun hc => h (hd.trans hc.symm).le
          rw [withKey_cons_of_ne hc]
          simp [withKey]
        · rw [withKey_cons_of_ne hd]
          simp [withKey]

theorem pairwise_insertBack {l : List α} (h : l.Pairwise (fun a b => key a ≤ key b)) (c : α) :
    (insertBack key l c).Pairwise (fun a b => key a ≤ key b) := by
  induction l using List.reverseRecOn with
  | nil => simp
  | append_singleton l d ih =>
      rw [List.pairwise_append] at h
      obtain ⟨hl, -, hd⟩ := h
      by_cases hle : key d ≤ key c
      · rw [insertBack_concat_of_le l hle, List.pairwise_append]
        refine ⟨hl, by simpa using hle, ?_⟩
        intro a ha b hb
        have had := hd a ha d (List.mem_singleton.2 rfl)
        rcases List.mem_pair.1 hb with rfl | rfl
        · exact had
        · exact had.trans hle
      · rw [insertBack_concat_of_lt l (not_le.1 hle), List.pairwise_append]
        refine ⟨ih hl, by simp, ?_⟩
        intro a ha b hb
        rcases List.mem_singleton.1 hb with rfl
        rcases List.mem_append.1 ((insertBack_perm l c).subset ha) with ha | ha
        · exact hd a ha b (List.mem_singleton.2 rfl)
        · rcases List.mem_singleton.1 ha with rfl
          exact (not_le.1 hle).le

theorem insertBack_sortBy (l : List α) (c : α) :
    insertBack key (sortBy key l) c = sortBy key (l ++ [c]) := by
  apply eq_of_withKey (pairwise_insertBack (pairwise_sortBy l) c) (pairwise_sortBy _)
  intro k
  rw [withKey_insertBack, withKey_append, withKey_sortBy, withKey_sortBy, withKey_append]

theorem insertBack_append {l l' : List α} {c : α}
    (h : ∀ d ∈ l.getLast?, key d ≤ key c) :
    insertBack key (l ++ l') c = l ++ insertBack key l' c := by
  induction l' using List.reverseRecOn with
  | nil =>
      rw [List.append_nil]
      cases hlast : l.getLast? with
      | none =>
          rw [List.getLast?_eq_none_iff.1 hlast]
          rfl
      | some d =>
          obtain ⟨l, rfl⟩ := List.getLast?_eq_some_iff.1 hlast
          rw [insertBack_concat_of_le l (h d hlast)]
          simp
  | append_singleton l' d ih =>
      rw [← List.append_assoc]
      by_cases hle : key d ≤ key c
      · rw [insertBack_concat_of_le _ hle, insertBack_concat_of_le _ hle, List.append_assoc]
      · rw [insertBack_concat_of_lt _ (not_le.1 hle), insertBack_concat_of_lt _ (not_le.1 hle), ih,
          List.append_assoc]

end Sorting

/-! ## Runs -/

section Runs

variable {α : Type*} (key : α → ℕ)

/-- Each maximal run of elements with a key other than zero is sorted, and the elements with the
key zero stay where they are. The run before the list is given. -/
def sortRuns : List α → List α → List α
  | run, [] => sortBy key run
  | run, c :: l =>
      if key c = 0 then sortBy key run ++ c :: sortRuns [] l else sortRuns (run ++ [c]) l

/-- An element with the key zero is appended, and any other one is inserted from behind. -/
def place (l : List α) (c : α) : List α := if key c = 0 then l ++ [c] else insertBack key l c

variable {key}

theorem place_of_eq {c : α} (h : key c = 0) (l : List α) : place key l c = l ++ [c] := by
  rw [place, if_pos h]

theorem place_of_ne {c : α} (h : key c ≠ 0) (l : List α) : place key l c = insertBack key l c := by
  rw [place, if_neg h]

theorem place_nil (c : α) : place key [] c = [c] := by
  by_cases h : key c = 0
  · exact place_of_eq h []
  · rw [place_of_ne h, insertBack_nil]

/-- Behind an element with the key zero, nothing is moved. -/
theorem place_concat {c : α} (h : key c = 0) (l : List α) (d : α) :
    place key (l ++ [c]) d = l ++ [c] ++ [d] := by
  by_cases hd : key d = 0
  · exact place_of_eq hd _
  · rw [place_of_ne hd, insertBack_concat_of_le l (h ▸ Nat.zero_le _), List.append_assoc]
    rfl

theorem place_perm (l : List α) (c : α) : (place key l c).Perm (l ++ [c]) := by
  by_cases h : key c = 0
  · rw [place_of_eq h]
  · rw [place_of_ne h]
    exact insertBack_perm l c

theorem sortRuns_perm (run l : List α) : (sortRuns key run l).Perm (run ++ l) := by
  induction l generalizing run with
  | nil => simpa [sortRuns] using sortBy_perm run
  | cons c l ih =>
      rw [sortRuns]
      split_ifs
      · exact (sortBy_perm run).append ((ih []).cons c)
      · simpa using ih (run ++ [c])

theorem foldl_place {before run : List α} (h : ∀ d ∈ before.getLast?, key d = 0) (l : List α) :
    l.foldl (place key) (before ++ sortBy key run) = before ++ sortRuns key run l := by
  induction l generalizing before run with
  | nil => rfl
  | cons c l ih =>
      rw [List.foldl_cons, sortRuns, place]
      split_ifs with hc
      · have hbefore : ∀ d ∈ (before ++ sortBy key run ++ [c]).getLast?, key d = 0 := by
          simpa using hc
        have hrun : l.foldl (place key) (before ++ sortBy key run ++ [c] ++ sortBy key []) =
            before ++ sortBy key run ++ [c] ++ sortRuns key [] l := ih hbefore
        rw [sortBy_nil, List.append_nil] at hrun
        rw [hrun]
        simp
      · rw [insertBack_append (fun d hd => by rw [h d hd]; exact Nat.zero_le _),
          insertBack_sortBy, ih h]

theorem foldl_place_nil (l : List α) : l.foldl (place key) [] = sortRuns key [] l := by
  have hfold : l.foldl (place key) ([] ++ sortBy key []) = [] ++ sortRuns key [] l :=
    foldl_place (by simp) l
  simpa using hfold

end Runs

end StableSort
