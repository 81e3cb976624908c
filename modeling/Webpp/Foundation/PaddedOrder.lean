import Mathlib.Data.List.Basic
import Mathlib.Order.BoundedOrder.Basic
import Mathlib.Order.Compare
import Mathlib.Order.Lattice

/-!
# The padded lexicographic order

Lists of different lengths are compared as if the shorter one went on with least elements.
`paddedCompare` pads both lists to the longer length and compares them element by element; its
equations follow the two lists instead, so that a loop over both of them can be compared with it
round by round.
-/

namespace PaddedOrder

variable {α : Type*}

/-- `count` elements at least, with least ones behind the list. -/
def padTo [Bot α] (count : ℕ) (xs : List α) : List α :=
  xs ++ List.replicate (count - xs.length) ⊥

/-- Both lists have the same elements when the shorter one is padded. -/
def PaddedEq [Bot α] (xs ys : List α) : Prop := padTo ys.length xs = padTo xs.length ys

instance [Bot α] [DecidableEq α] (xs ys : List α) : Decidable (PaddedEq xs ys) :=
  inferInstanceAs (Decidable (_ = _))

/-- Element by element, the first difference decides. -/
def lexCompare [Ord α] : List α → List α → Ordering
  | [], [] => .eq
  | [], _ :: _ => .lt
  | _ :: _, [] => .gt
  | x :: xs, y :: ys => (compare x y).then (lexCompare xs ys)

def paddedCompare [Bot α] [Ord α] (xs ys : List α) : Ordering :=
  lexCompare (padTo ys.length xs) (padTo xs.length ys)

@[simp] theorem lexCompare_cons [Ord α] (x y : α) (xs ys : List α) :
    lexCompare (x :: xs) (y :: ys) = (compare x y).then (lexCompare xs ys) := rfl

section Pad

variable [Bot α]

@[simp] theorem padTo_nil (count : ℕ) : padTo count ([] : List α) = List.replicate count ⊥ := rfl

@[simp] theorem padTo_zero (xs : List α) : padTo 0 xs = xs := by
  rw [padTo, Nat.zero_sub, List.replicate_zero, List.append_nil]

@[simp] theorem padTo_cons (count : ℕ) (x : α) (xs : List α) :
    padTo (count + 1) (x :: xs) = x :: padTo count xs := by
  rw [padTo, List.length_cons, Nat.add_sub_add_right, List.cons_append]
  rfl

theorem padTo_of_length_le {count : ℕ} {xs : List α} (h : count ≤ xs.length) :
    padTo count xs = xs := by
  rw [padTo, Nat.sub_eq_zero_of_le h, List.replicate_zero, List.append_nil]

@[simp] theorem paddedEq_cons (x y : α) (xs ys : List α) :
    PaddedEq (x :: xs) (y :: ys) ↔ x = y ∧ PaddedEq xs ys := by
  rw [PaddedEq, List.length_cons, List.length_cons, padTo_cons, padTo_cons, List.cons.injEq]
  rfl

theorem PaddedEq.symm {xs ys : List α} (h : PaddedEq xs ys) : PaddedEq ys xs := Eq.symm h

end Pad

section Order

variable [LinearOrder α]

theorem lexCompare_swap (xs ys : List α) : (lexCompare xs ys).swap = lexCompare ys xs := by
  induction xs generalizing ys with
  | nil =>
      cases ys with
      | nil => rfl
      | cons y ys => rfl
  | cons x xs ih =>
      cases ys with
      | nil => rfl
      | cons y ys =>
          rw [lexCompare_cons, lexCompare_cons, Ordering.swap_then, ih ys, ← Std.OrientedOrd.eq_swap]

theorem lexCompare_eq_iff (xs ys : List α) : lexCompare xs ys = .eq ↔ xs = ys := by
  induction xs generalizing ys with
  | nil =>
      cases ys with
      | nil => exact iff_of_true rfl rfl
      | cons y ys => exact iff_of_false (fun h => nomatch h) (List.cons_ne_nil y ys).symm
  | cons x xs ih =>
      cases ys with
      | nil => exact iff_of_false (fun h => nomatch h) (List.cons_ne_nil x xs)
      | cons y ys =>
          rw [lexCompare_cons, Ordering.then_eq_eq, compare_eq_iff_eq, ih ys, List.cons.injEq]

variable [OrderBot α]

@[simp] theorem paddedCompare_cons (x y : α) (xs ys : List α) :
    paddedCompare (x :: xs) (y :: ys) = (compare x y).then (paddedCompare xs ys) := by
  rw [paddedCompare, List.length_cons, List.length_cons, padTo_cons, padTo_cons, lexCompare_cons]
  rfl

theorem paddedCompare_of_length_eq {xs ys : List α} (h : xs.length = ys.length) :
    paddedCompare xs ys = lexCompare xs ys := by
  rw [paddedCompare, padTo_of_length_le (Nat.le_of_eq h.symm),
    padTo_of_length_le (Nat.le_of_eq h)]

theorem paddedCompare_swap (xs ys : List α) :
    (paddedCompare xs ys).swap = paddedCompare ys xs :=
  lexCompare_swap _ _

theorem paddedCompare_eq_iff (xs ys : List α) : paddedCompare xs ys = .eq ↔ PaddedEq xs ys :=
  lexCompare_eq_iff _ _

/-- Behind the end of the left list everything but the least element is greater. -/
theorem paddedCompare_nil_left (ys : List α) :
    paddedCompare [] ys = if ∃ y ∈ ys, y ≠ ⊥ then .lt else .eq := by
  rw [paddedCompare, List.length_nil, padTo_zero, padTo_nil]
  induction ys with
  | nil => simp [lexCompare]
  | cons y ys ih =>
      rw [List.length_cons, List.replicate_succ, lexCompare_cons, ih]
      by_cases hy : y = ⊥
      · subst hy
        simp
      · have hlt : compare ⊥ y = .lt := compare_lt_iff_lt.mpr (bot_lt_iff_ne_bot.mpr hy)
        simp [hlt, hy]

theorem paddedCompare_nil_right (xs : List α) :
    paddedCompare xs [] = if ∃ x ∈ xs, x ≠ ⊥ then .gt else .eq := by
  rw [← paddedCompare_swap, paddedCompare_nil_left]
  split
  · rfl
  · rfl

end Order

end PaddedOrder
