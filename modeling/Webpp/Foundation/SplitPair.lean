import Mathlib.Data.List.Infix

/-!
# Splitting at a pair

A list is split at each place where `a` is followed by `b`. The parts do not have such a
place, and parts without one are found again when they are put together with `a`, `b` behind
each of them.
-/

namespace Split

variable {α : Type*}

/-- No `a` is followed by a `b`. -/
def Unsplit (a b : α) (l : List α) : Prop := ¬ [a, b] <:+: l

variable {a b : α} {l : List α}

theorem Unsplit.of_cons {x : α} (h : Unsplit a b (x :: l)) : Unsplit a b l :=
  fun hinside => h (hinside.trans (List.suffix_cons x l).isInfix)

theorem Unsplit.head_ne {y : α} (h : Unsplit a b (a :: y :: l)) : y ≠ b := by
  rintro rfl
  exact h (List.IsPrefix.isInfix ⟨l, rfl⟩)

theorem unsplit_nil : Unsplit a b [] := by
  intro h
  exact List.cons_ne_nil _ _ (List.infix_nil.mp h)

theorem unsplit_of_not_mem (h : a ∉ l) : Unsplit a b l :=
  fun hinside => h (hinside.subset List.mem_cons_self)

theorem unsplit_singleton (x : α) : Unsplit a b [x] := by
  intro h
  exact absurd h.length_le (Nat.not_succ_le_self 1)

theorem Unsplit.cons {x : α} (h : Unsplit a b l)
    (hhead : x = a → l.head? ≠ some b) : Unsplit a b (x :: l) := by
  intro hinside
  rcases List.infix_cons_iff.mp hinside with hstart | hinside
  · obtain ⟨t, ht⟩ := hstart
    obtain ⟨rfl, rfl⟩ := List.cons_eq_cons.mp ht
    exact hhead rfl rfl
  · exact h hinside

/-- A separator other than `a` and `b` takes a list apart. -/
theorem unsplit_append_cons {c : α} (ha : c ≠ a) (hb : c ≠ b) (l m : List α) :
    Unsplit a b (l ++ c :: m) ↔ Unsplit a b l ∧ Unsplit a b m := by
  constructor
  · intro h
    exact ⟨fun hl => h (hl.trans (List.prefix_append _ _).isInfix),
      fun hm => h (hm.trans ((List.suffix_cons _ _).trans (List.suffix_append _ _)).isInfix)⟩
  · rintro ⟨hl, hm⟩
    induction l with
    | nil => exact hm.cons fun hc => absurd hc ha
    | cons x l ih =>
        refine (ih hl.of_cons).cons fun hx => ?_
        subst hx
        cases l with
        | nil => exact fun hc => hb (Option.some.inj hc)
        | cons y l => exact fun hy => hl.head_ne (Option.some.inj hy)

variable [DecidableEq α]

/-- The parts between the places where `a` is followed by `b`. -/
def splitPair (a b : α) : List α → List (List α)
  | [] => [[]]
  | [x] => [[x]]
  | x :: y :: l =>
      if x = a ∧ y = b then [] :: splitPair a b l
      else (splitPair a b (y :: l)).modifyHead (x :: ·)

theorem splitPair_append (hab : a ≠ b) {line : List α} (h : Unsplit a b line) (rest : List α) :
    splitPair a b (line ++ a :: b :: rest) = line :: splitPair a b rest := by
  induction line with
  | nil => exact if_pos ⟨rfl, rfl⟩
  | cons x line ih =>
      cases line with
      | nil =>
          rw [List.cons_append, List.nil_append, splitPair, if_neg fun hx => hab hx.2,
            splitPair, if_pos ⟨rfl, rfl⟩, List.modifyHead_cons]
      | cons y line =>
          have hpair : ¬ (x = a ∧ y = b) := by
            rintro ⟨rfl, rfl⟩
            exact h.head_ne rfl
          rw [List.cons_append, List.cons_append, splitPair, if_neg hpair,
            ← List.cons_append, ih h.of_cons, List.modifyHead_cons]

theorem splitPair_flatMap_append (hab : a ≠ b) {lines : List (List α)}
    (h : ∀ line ∈ lines, Unsplit a b line) (rest : List α) :
    splitPair a b ((lines.flatMap fun line => line ++ [a, b]) ++ rest) =
      lines ++ splitPair a b rest := by
  induction lines with
  | nil => rfl
  | cons line lines ih =>
      have hline := h line List.mem_cons_self
      rw [List.flatMap_cons, List.append_assoc, List.append_assoc, List.cons_append,
        List.singleton_append, splitPair_append hab hline,
        ih fun l hl => h l (List.mem_cons_of_mem _ hl)]
      rfl

/-- Parts that have no separator in them are the parts of the list put together. -/
theorem splitPair_flatMap (hab : a ≠ b) {lines : List (List α)}
    (h : ∀ line ∈ lines, Unsplit a b line) :
    splitPair a b (lines.flatMap fun line => line ++ [a, b]) = lines ++ [[]] := by
  rw [← List.append_nil (lines.flatMap _), splitPair_flatMap_append hab h, splitPair]

theorem exists_splitPair (l : List α) :
    ∃ first parts, splitPair a b l = first :: parts ∧ first <+: l ∧
      ∀ part ∈ first :: parts, Unsplit a b part := by
  induction l using splitPair.induct a b with
  | case1 => exact ⟨[], [], rfl, List.prefix_refl _, by simpa using unsplit_nil⟩
  | case2 x => exact ⟨[x], [], rfl, List.prefix_refl _, by simpa using unsplit_singleton x⟩
  | case3 x y l hpair ih =>
      obtain ⟨first, parts, heq, -, hparts⟩ := ih
      refine ⟨[], first :: parts, ?_, List.nil_prefix, ?_⟩
      · rw [splitPair, if_pos hpair, heq]
      · exact List.forall_mem_cons.mpr ⟨unsplit_nil, hparts⟩
  | case4 x y l hpair ih =>
      obtain ⟨first, parts, heq, hfirst, hparts⟩ := ih
      obtain ⟨hhead, hparts⟩ := List.forall_mem_cons.mp hparts
      refine ⟨x :: first, parts, ?_, (List.cons_prefix_cons).mpr ⟨rfl, hfirst⟩, ?_⟩
      · rw [splitPair, if_neg hpair, heq, List.modifyHead_cons]
      · refine List.forall_mem_cons.mpr ⟨hhead.cons fun hx hy => hpair ⟨hx, ?_⟩, hparts⟩
        obtain ⟨t, ht⟩ := hfirst
        cases first with
        | nil => cases hy
        | cons z first => exact (List.cons_eq_cons.mp ht).1.symm.trans (Option.some.inj hy)

theorem unsplit_of_mem_splitPair {l part : List α} (h : part ∈ splitPair a b l) :
    Unsplit a b part := by
  obtain ⟨first, parts, heq, -, hparts⟩ := exists_splitPair (a := a) (b := b) l
  rw [heq] at h
  exact hparts part h

/-- The parts with the separator between them are the list. -/
theorem intercalate_splitPair (l : List α) : List.intercalate [a, b] (splitPair a b l) = l := by
  induction l using splitPair.induct a b with
  | case1 => rfl
  | case2 x => rfl
  | case3 x y l hpair ih =>
      obtain ⟨first, parts, heq, -, -⟩ := exists_splitPair (a := a) (b := b) l
      rw [splitPair, if_pos hpair, heq, List.intercalate_cons_cons, ← heq, ih, hpair.1, hpair.2]
      rfl
  | case4 x y l hpair ih =>
      obtain ⟨first, parts, heq, -, -⟩ := exists_splitPair (a := a) (b := b) (y :: l)
      rw [splitPair, if_neg hpair, heq, List.modifyHead_cons]
      rw [heq] at ih
      cases parts with
      | nil =>
          rw [List.intercalate_singleton] at ih ⊢
          rw [ih]
      | cons part parts =>
          rw [List.intercalate_cons_cons] at ih ⊢
          rw [List.cons_append, List.cons_append, ih]

end Split
