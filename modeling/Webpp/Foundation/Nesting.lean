import Mathlib.Data.List.Basic

/-!
# Nesting

Words over brackets with labels and other letters. A word is nested if each of its brackets is
closed by one with the same label, and what is between the two is nested. A stack of the labels
that are open decides it: a bracket that closes takes its own label off.
-/

namespace Nesting

variable {α ν : Type*}

/-- What a letter is for the nesting. -/
inductive Role (ν : Type*) where
  | opens (label : ν)
  | closes (label : ν)
  | other

/-- The nested words. -/
inductive Nested (role : α → Role ν) : List α → Prop where
  | nil : Nested role []
  | skip {a : α} {w : List α} (ha : role a = .other) (h : Nested role w) : Nested role (a :: w)
  | bracket {a b : α} {label : ν} {inner w : List α} (ha : role a = .opens label)
      (hinner : Nested role inner) (hb : role b = .closes label) (h : Nested role w) :
      Nested role (a :: (inner ++ b :: w))

section Words

variable {role : α → Role ν} {stack : List ν} {w : List α}

theorem nested_of_other (h : ∀ a ∈ w, role a = .other) : Nested role w := by
  induction w with
  | nil => exact .nil
  | cons a w ih =>
      rw [List.forall_mem_cons] at h
      exact .skip h.1 (ih h.2)

/-- The words that close the labels of a stack. -/
inductive Closing (role : α → Role ν) : List ν → List α → Prop where
  | done {w : List α} (h : Nested role w) : Closing role [] w
  | next {b : α} {label : ν} {stack : List ν} {inner w : List α} (hinner : Nested role inner)
      (hb : role b = .closes label) (h : Closing role stack w) :
      Closing role (label :: stack) (inner ++ b :: w)

theorem Closing.skip {a : α} (ha : role a = .other) (h : Closing role stack w) :
    Closing role stack (a :: w) := by
  cases h with
  | done h => exact .done (.skip ha h)
  | next hinner hb h => exact .next (.skip ha hinner) hb h

theorem Closing.bracket {a b : α} {label : ν} {inner : List α} (ha : role a = .opens label)
    (hinner : Nested role inner) (hb : role b = .closes label) (h : Closing role stack w) :
    Closing role stack (a :: (inner ++ b :: w)) := by
  cases h with
  | done h => exact .done (.bracket ha hinner hb h)
  | next hinner' hb' h =>
      rename_i b' label' stack' inner' w'
      have hword : a :: (inner ++ b :: (inner' ++ b' :: w')) =
          (a :: (inner ++ b :: inner')) ++ b' :: w' := by simp
      rw [hword]
      exact .next (.bracket ha hinner hb hinner') hb' h

end Words

section Stack

variable [DecidableEq ν]

/-- The stack behind a letter. -/
def followOne : List ν → Role ν → Option (List ν)
  | stack, .opens label => some (label :: stack)
  | [], .closes _ => none
  | top :: stack, .closes label => if top = label then some stack else none
  | stack, .other => some stack

/-- The stack behind a word, which is missing if a bracket does not close the innermost one. -/
def follow (role : α → Role ν) (stack : List ν) (w : List α) : Option (List ν) :=
  w.foldlM (fun stack a => followOne stack (role a)) stack

variable {role : α → Role ν} {stack : List ν} {w : List α}

theorem follow_nil : follow role stack [] = some stack := rfl

theorem follow_cons (a : α) (w : List α) :
    follow role stack (a :: w) = (followOne stack (role a)).bind (follow role · w) :=
  List.foldlM_cons

theorem follow_append (w w' : List α) :
    follow role stack (w ++ w') = (follow role stack w).bind (follow role · w') :=
  List.foldlM_append

theorem follow_singleton (a : α) : follow role stack [a] = followOne stack (role a) := by
  rw [follow_cons]
  cases followOne stack (role a) <;> rfl

/-- A nested word leaves the stack as it is. -/
theorem follow_of_nested (h : Nested role w) (stack : List ν) :
    follow role stack w = some stack := by
  induction h generalizing stack with
  | nil => rfl
  | skip ha h ih =>
      rw [follow_cons, ha]
      exact ih stack
  | bracket ha hinner hb h ihinner ih =>
      rename_i a b label inner w
      rw [follow_cons, ha]
      change follow role (label :: stack) (inner ++ b :: w) = some stack
      rw [follow_append, ihinner (label :: stack)]
      change follow role (label :: stack) (b :: w) = some stack
      rw [follow_cons, hb, followOne, if_pos rfl]
      exact ih stack

theorem closing_of_follow (h : follow role stack w = some []) : Closing role stack w := by
  induction w generalizing stack with
  | nil =>
      rw [follow_nil, Option.some_inj] at h
      rw [h]
      exact .done .nil
  | cons a w ih =>
      rw [follow_cons] at h
      cases ha : role a with
      | opens label =>
          rw [ha] at h
          cases ih h with
          | next hinner hb hrest => exact .bracket ha hinner hb hrest
      | closes label =>
          rw [ha] at h
          cases stack with
          | nil => cases h
          | cons top stack =>
              rw [followOne] at h
              split at h
              · rename_i htop
                rw [htop]
                exact .next .nil ha (ih h)
              · cases h
      | other =>
          rw [ha] at h
          exact .skip ha (ih h)

/-- The stack decides whether a word is nested. -/
theorem nested_iff : Nested role w ↔ follow role [] w = some [] := by
  constructor
  · exact fun h => follow_of_nested h []
  · intro h
    cases closing_of_follow h with
    | done h => exact h

end Stack

end Nesting
