import Mathlib.Data.List.Basic

/-!
# Percent codes

A mark and the two characters behind it stand for one character; the others stand for
themselves. `pieces` cuts a text into these parts before any of them is judged, and
`pieces_flatMap_text` is the inverse of it. A reading says what a piece stands for, `none` for
a piece that it refuses; a text is read piece by piece, and `mapM_eq_mapM_iff` is where two
readings of which one extends the other come to the same.
-/

namespace PercentCode

variable {α β : Type*}

inductive Piece (α : Type*) where
  | plain (c : α)
  | escape (c1 c2 : α)
  /-- A mark with fewer than two characters behind it. -/
  | cut (rest : List α)
  deriving DecidableEq

namespace Piece

def text (mark : α) : Piece α → List α
  | plain c => [c]
  | escape c1 c2 => [mark, c1, c2]
  | cut rest => mark :: rest

/-- The pieces that may stand anywhere in a text. -/
def Proper (mark : α) : Piece α → Prop
  | plain c => c ≠ mark
  | escape _ _ => True
  | cut _ => False

end Piece

section Pieces

variable [DecidableEq α] {mark : α}

/-- The pieces of a text. -/
def pieces (mark : α) : List α → List (Piece α)
  | [] => []
  | c :: text =>
      if c = mark then
        match text with
        | c1 :: c2 :: rest => .escape c1 c2 :: pieces mark rest
        | rest => [.cut rest]
      else .plain c :: pieces mark text

@[simp] theorem pieces_nil : pieces mark [] = [] := rfl

theorem pieces_plain {c : α} (h : c ≠ mark) (text : List α) :
    pieces mark (c :: text) = .plain c :: pieces mark text := by
  rw [pieces.eq_def]
  exact if_neg h

@[simp] theorem pieces_escape (c1 c2 : α) (rest : List α) :
    pieces mark (mark :: c1 :: c2 :: rest) = .escape c1 c2 :: pieces mark rest := by
  rw [pieces.eq_def]
  exact if_pos rfl

theorem pieces_cut {rest : List α} (h : rest.length < 2) :
    pieces mark (mark :: rest) = [.cut rest] := by
  rcases rest with _ | ⟨c1, _ | ⟨c2, rest⟩⟩
  · exact if_pos rfl
  · exact if_pos rfl
  · rw [List.length_cons, List.length_cons] at h
    omega

/-- The induction along the pieces of a text. -/
theorem pieces_induction {P : List α → Prop} (mark : α) (nil : P [])
    (plain : ∀ c text, c ≠ mark → P text → P (c :: text))
    (escape : ∀ c1 c2 rest, P rest → P (mark :: c1 :: c2 :: rest))
    (cut : ∀ rest : List α, rest.length < 2 → P (mark :: rest)) (text : List α) : P text := by
  fun_induction pieces mark text with
  | case1 => exact nil
  | case2 c1 c2 rest ih => exact escape c1 c2 rest ih
  | case3 rest hrest =>
      refine cut rest ?_
      rcases rest with _ | ⟨c1, _ | ⟨c2, rest⟩⟩
      · exact Nat.zero_lt_two
      · exact Nat.one_lt_two
      · exact (hrest c1 c2 rest rfl).elim
  | case4 c text hc ih => exact plain c text hc ih

theorem length_pieces_le (text : List α) : (pieces mark text).length ≤ text.length := by
  induction text using pieces_induction mark with
  | nil => exact Nat.le_refl _
  | plain c text hc ih =>
      rw [pieces_plain hc]
      exact Nat.succ_le_succ ih
  | escape c1 c2 rest ih =>
      rw [pieces_escape, List.length_cons, List.length_cons, List.length_cons, List.length_cons]
      omega
  | cut rest hrest =>
      rw [pieces_cut hrest, List.length_singleton, List.length_cons]
      omega

/-- A text that is put together from proper pieces has these pieces. -/
theorem pieces_flatMap_text {ps : List (Piece α)} (h : ∀ p ∈ ps, p.Proper mark) :
    pieces mark (ps.flatMap (Piece.text mark)) = ps := by
  induction ps with
  | nil => rfl
  | cons p ps ih =>
      have htail := ih fun q hq => h q (List.mem_cons_of_mem p hq)
      have hp := h p List.mem_cons_self
      rw [List.flatMap_cons]
      cases p with
      | plain c =>
          rw [Piece.text, List.cons_append, List.nil_append, pieces_plain hp, htail]
      | escape c1 c2 =>
          rw [Piece.text, List.cons_append, List.cons_append, List.cons_append,
            List.nil_append, pieces_escape, htail]
      | cut rest => exact hp.elim

end Pieces

/-! ## Readings -/

/-- A reading refuses a list where it refuses one of its members. -/
theorem mapM_eq_none_iff {γ : Type*} {read : γ → Option β} {ps : List γ} :
    ps.mapM read = none ↔ ∃ p ∈ ps, read p = none := by
  induction ps with
  | nil => simp
  | cons p ps ih =>
      rw [List.mapM_cons, List.exists_mem_cons_iff, ← ih]
      cases hp : read p with
      | none => simp
      | some b =>
          cases hps : ps.mapM read with
          | none => simp
          | some bs => simp

theorem mapM_cons_eq_some {γ : Type*} {read : γ → Option β} {p : γ} {ps : List γ} {out : List β}
    (h : (p :: ps).mapM read = some out) :
    ∃ b bs, read p = some b ∧ ps.mapM read = some bs ∧ out = b :: bs := by
  rw [List.mapM_cons] at h
  cases hp : read p with
  | none =>
      rw [hp] at h
      cases h
  | some b =>
      cases hps : ps.mapM read with
      | none =>
          rw [hp, hps] at h
          cases h
      | some bs =>
          rw [hp, hps] at h
          cases h
          exact ⟨b, bs, rfl, rfl, rfl⟩

theorem mapM_congr {γ : Type*} {read read' : γ → Option β} {ps : List γ}
    (h : ∀ p ∈ ps, read p = read' p) : ps.mapM read = ps.mapM read' := by
  induction ps with
  | nil => rfl
  | cons p ps ih =>
      rw [List.mapM_cons, List.mapM_cons, h p List.mem_cons_self,
        ih fun q hq => h q (List.mem_cons_of_mem p hq)]

/-- Of two readings of which one extends the other, both read a list alike where the longer one
refuses it, or adds nothing on it. -/
theorem mapM_eq_mapM_iff {γ : Type*} {read strict : γ → Option β}
    (hext : ∀ p b, strict p = some b → read p = some b) (ps : List γ) :
    ps.mapM read = ps.mapM strict ↔
      (∃ p ∈ ps, read p = none) ∨ ∀ p ∈ ps, strict p = none → read p = none := by
  have hnone : ∀ p, read p = none → strict p = none := by
    intro p hp
    cases hs : strict p with
    | none => rfl
    | some b =>
        rw [hext p b hs] at hp
        cases hp
  constructor
  · intro heq
    by_cases hread : ∃ p ∈ ps, read p = none
    · exact .inl hread
    · refine .inr fun p hp hs => (hread ?_).elim
      have hstrict : ps.mapM strict = none := mapM_eq_none_iff.mpr ⟨p, hp, hs⟩
      exact mapM_eq_none_iff.mp (heq.trans hstrict)
  · rintro (⟨p, hp, hread⟩ | hall)
    · rw [mapM_eq_none_iff.mpr ⟨p, hp, hread⟩, mapM_eq_none_iff.mpr ⟨p, hp, hnone p hread⟩]
    · refine mapM_congr fun p hp => ?_
      cases hs : strict p with
      | none => exact hall p hp hs
      | some b => exact hext p b hs

end PercentCode
