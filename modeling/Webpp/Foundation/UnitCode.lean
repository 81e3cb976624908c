import Mathlib.Data.List.Basic

/-!
# Texts of units

An element of a text is encoded by one or more units. A decoder is a step: from a position it
reads one element, and it moves to the next position. A walk takes steps until it is at its stop,
which is the end of the text for a decoder that moves forwards, and zero for one that moves
backwards.
-/

namespace UnitCode

variable {α β : Type*} {l : List α} {P : α → Prop}

/-! ## Positions -/

/-- The value of the unit at a position, if there is one. -/
def readAs (value : β → α) (s : List β) (pos : ℕ) : Option α := s[pos]?.map value

/-- The position before, if there is one. -/
def back (pos : ℕ) : Option ℕ := if pos = 0 then none else some (pos - 1)

section Reads

variable (value : β → α) (before s : List β) (u : β)

@[simp] theorem readAs_append_add (k : ℕ) :
    readAs value (before ++ s) (before.length + k) = readAs value s k := by
  rw [readAs, readAs, List.getElem?_append_right (Nat.le_add_right _ _), Nat.add_sub_cancel_left]

@[simp] theorem readAs_append_length :
    readAs value (before ++ s) before.length = readAs value s 0 :=
  readAs_append_add value before s 0

@[simp] theorem readAs_cons_zero : readAs value (u :: s) 0 = some (value u) := rfl

@[simp] theorem readAs_cons_succ (k : ℕ) : readAs value (u :: s) (k + 1) = readAs value s k := rfl

@[simp] theorem back_succ (pos : ℕ) : back (pos + 1) = some pos := rfl

theorem readAs_of_lt {s : List β} {pos : ℕ} (h : pos < s.length) :
    ∃ v, readAs value s pos = some v := by
  refine ⟨value s[pos], ?_⟩
  rw [readAs, List.getElem?_eq_getElem h, Option.map_some]

end Reads

/-! ## Walks -/

/-- At most `n` steps, until the stop. -/
def walk (step : ℕ → Option (α × ℕ)) (stop : ℕ) : ℕ → ℕ → Option (List α)
  | 0, _ => none
  | n + 1, pos =>
      if pos = stop then some []
      else (step pos).bind (fun r => (walk step stop n r.2).map (fun l => r.1 :: l))

variable {step : ℕ → Option (α × ℕ)} {stop : ℕ}

theorem walk_stop (n : ℕ) : walk step stop (n + 1) stop = some [] := by
  rw [walk, if_pos rfl]

theorem walk_of_step {n pos pos' : ℕ} {c : α} (hpos : pos ≠ stop)
    (hstep : step pos = some (c, pos')) :
    walk step stop (n + 1) pos = (walk step stop n pos').map (fun l => c :: l) := by
  rw [walk, if_neg hpos, hstep, Option.bind_some]

theorem eq_of_walk_eq_nil {n pos : ℕ} (h : walk step stop n pos = some []) : pos = stop := by
  cases n with
  | zero => cases h
  | succ n =>
      rw [walk] at h
      split_ifs at h with hpos
      · exact hpos
      · obtain ⟨r, -, hmap⟩ := Option.bind_eq_some_iff.1 h
        obtain ⟨l, -, hcons⟩ := Option.map_eq_some_iff.1 hmap
        cases hcons

theorem walk_eq_some_cons {n pos : ℕ} {c : α} (h : walk step stop n pos = some (c :: l)) :
    ∃ pos' m, step pos = some (c, pos') ∧ walk step stop m pos' = some l := by
  cases n with
  | zero => cases h
  | succ n =>
      rw [walk] at h
      split_ifs at h
      · cases h
      · obtain ⟨⟨c', pos'⟩, hstep, hmap⟩ := Option.bind_eq_some_iff.1 h
        obtain ⟨l', hl, hcons⟩ := Option.map_eq_some_iff.1 hmap
        cases hcons
        exact ⟨pos', n, hstep, hl⟩

/-- The walk from the position `pos r`, where `r` is what is left to decode, decodes what is left
if and only if the step is right at each of its elements. -/
theorem walk_iff (pos : List α → ℕ) {n : ℕ} (hn : l.length < n)
    (hnil : pos [] = stop) (hcons : ∀ c r, (c :: r) <:+ l → pos (c :: r) ≠ stop)
    (hright : ∀ c r, (c :: r) <:+ l → P c → step (pos (c :: r)) = some (c, pos r))
    (hwrong : ∀ c r n, (c :: r) <:+ l → ¬ P c → walk step stop n (pos (c :: r)) ≠ some (c :: r)) :
    walk step stop n (pos l) = some l ↔ ∀ c ∈ l, P c := by
  induction l generalizing n with
  | nil =>
      obtain ⟨n, rfl⟩ := Nat.exists_eq_add_of_lt hn
      rw [hnil, walk_stop]
      simp
  | cons c r ih =>
      obtain ⟨n, rfl⟩ := Nat.exists_eq_add_of_lt hn
      have hsuffix : (c :: r) <:+ (c :: r) := List.suffix_refl _
      have hlt : r.length < (c :: r).length + n :=
        Nat.lt_of_lt_of_le (Nat.lt_succ_self _) (Nat.le_add_right _ _)
      have hr := ih hlt
        (fun c' r' h => hcons c' r' (h.trans (List.suffix_cons c r)))
        (fun c' r' h => hright c' r' (h.trans (List.suffix_cons c r)))
        (fun c' r' n h => hwrong c' r' n (h.trans (List.suffix_cons c r)))
      rw [List.forall_mem_cons]
      by_cases hP : P c
      · rw [walk_of_step (hcons c r hsuffix) (hright c r hsuffix hP), Option.map_eq_some_iff]
        simp only [List.cons.injEq, true_and, exists_eq_right]
        rw [hr, and_iff_right hP]
      · exact iff_of_false (hwrong c r _ hsuffix hP) (fun h => hP h.1)

/-! ## Texts -/

section Text

variable (encode : α → List β)

/-- The units of a list of elements. -/
def text (l : List α) : List β := l.flatMap encode

@[simp] theorem text_nil : text encode [] = [] := rfl

@[simp] theorem text_cons (c : α) (l : List α) :
    text encode (c :: l) = encode c ++ text encode l := List.flatMap_cons

@[simp] theorem text_append (l l' : List α) :
    text encode (l ++ l') = text encode l ++ text encode l' := List.flatMap_append

/-- An encoder that appends to what there is, is called for each element. -/
def appendAll (append : List β → α → List β × ℕ) (l : List α) : List β :=
  l.foldl (fun out c => (append out c).1) []

/-- A decoder that moves forwards over the whole text. -/
def forwards (next : List β → ℕ → Option (α × ℕ)) (s : List β) : Option (List α) :=
  walk (next s) s.length (s.length + 1) 0

/-- A decoder that moves backwards over the whole text. -/
def backwards (prev : List β → ℕ → Option (α × ℕ)) (s : List β) : Option (List α) :=
  walk (prev s) 0 (s.length + 1) s.length

variable {encode}

theorem appendAll_eq {append : List β → α → List β × ℕ}
    (happend : ∀ out c, append out c = (out ++ encode c, (encode c).length)) (l : List α) :
    appendAll append l = text encode l := by
  have hfold : ∀ out, l.foldl (fun out c => (append out c).1) out = out ++ text encode l := by
    induction l with
    | nil => simp
    | cons c l ih =>
        intro out
        rw [List.foldl_cons, ih, happend, text_cons, List.append_assoc]
  exact hfold []

theorem length_le_text (hne : ∀ c, encode c ≠ []) (l : List α) :
    l.length ≤ (text encode l).length := by
  induction l with
  | nil => exact Nat.le_refl 0
  | cons c l ih =>
      rw [text_cons, List.length_append, List.length_cons, Nat.add_comm]
      exact Nat.add_le_add (List.length_pos_of_ne_nil (hne c)) ih

theorem forwards_iff {next : List β → ℕ → Option (α × ℕ)} (hne : ∀ c, encode c ≠ [])
    (hright : ∀ before c after, P c →
      next (text encode before ++ (encode c ++ after)) (text encode before).length =
        some (c, (text encode before).length + (encode c).length))
    (hwrong : ∀ before c after n, l = before ++ c :: after → ¬ P c →
      walk (next (text encode l)) (text encode l).length n (text encode before).length ≠
        some (c :: after)) :
    forwards next (text encode l) = some l ↔ ∀ c ∈ l, P c := by
  -- What is before the rest `r` of the list.
  have hpos : ∀ before r, l = before ++ r →
      (text encode l).length - (text encode r).length = (text encode before).length := by
    rintro before r rfl
    rw [text_append, List.length_append, Nat.add_sub_cancel]
  have hlen := Nat.lt_succ_of_le (length_le_text hne l)
  have hwalk : walk (next (text encode l)) (text encode l).length ((text encode l).length + 1)
      ((text encode l).length - (text encode l).length) = some l ↔ ∀ c ∈ l, P c :=
    walk_iff (fun r => (text encode l).length - (text encode r).length) hlen (by simp) ?_ ?_ ?_
  · rw [Nat.sub_self] at hwalk
    exact hwalk
  · rintro c r ⟨before, hl⟩
    rw [hpos before (c :: r) hl.symm, ← hl, text_append, text_cons]
    have := List.length_pos_of_ne_nil (hne c)
    simp only [List.length_append]
    omega
  · rintro c r ⟨before, hl⟩ hP
    rw [hpos before (c :: r) hl.symm, hpos (before ++ [c]) r (by simp [hl])]
    have := hright before c (text encode r) hP
    rw [← hl, text_append, text_cons, this]
    simp
  · rintro c r n ⟨before, hl⟩ hP
    rw [hpos before (c :: r) hl.symm]
    exact hwrong before c r n hl.symm hP

theorem backwards_iff {prev : List β → ℕ → Option (α × ℕ)} (hne : ∀ c, encode c ≠ [])
    (hright : ∀ before c after, P c →
      prev (text encode before ++ (encode c ++ after))
          ((text encode before).length + (encode c).length) =
        some (c, (text encode before).length))
    (hwrong : ∀ before c after n, l = before ++ c :: after → ¬ P c →
      walk (prev (text encode l)) 0 n ((text encode before).length + (encode c).length) ≠
        some (c :: before.reverse)) :
    backwards prev (text encode l) = some l.reverse ↔ ∀ c ∈ l, P c := by
  have hsplit : ∀ c r, (c :: r) <:+ l.reverse → ∃ after, l = r.reverse ++ c :: after := by
    rintro c r ⟨after, hl⟩
    refine ⟨after.reverse, ?_⟩
    rw [← List.reverse_inj, ← hl]
    simp
  have hlength : ∀ c r, (text encode (c :: r).reverse).length =
      (text encode r.reverse).length + (encode c).length := by
    intro c r
    simp
  have hlen : l.reverse.length < (text encode l).length + 1 := by
    rw [List.length_reverse]
    exact Nat.lt_succ_of_le (length_le_text hne l)
  have hwalk : walk (prev (text encode l)) 0 ((text encode l).length + 1)
      (text encode l.reverse.reverse).length = some l.reverse ↔ ∀ c ∈ l.reverse, P c :=
    walk_iff (fun r => (text encode r.reverse).length) hlen (by simp) ?_ ?_ ?_
  · rw [List.reverse_reverse] at hwalk
    rw [backwards, hwalk]
    simp
  · intro c r _
    rw [hlength]
    have := List.length_pos_of_ne_nil (hne c)
    omega
  · intro c r hsuffix hP
    obtain ⟨after, hl⟩ := hsplit c r hsuffix
    have := hright r.reverse c (text encode after) hP
    rw [hlength, hl, text_append, text_cons, this]
  · intro c r n hsuffix hP
    obtain ⟨after, hl⟩ := hsplit c r hsuffix
    have := hwrong r.reverse c after n hl hP
    rw [List.reverse_reverse] at this
    rw [hlength]
    exact this

end Text

end UnitCode
