import Mathlib.Data.List.Basic
import Mathlib.Data.List.DropRight
import Mathlib.Data.List.TakeWhile

/-!
# Margins

Trimming takes the blanks off both ends of a text. What is left is the one core of the text that
has no blanks at its ends and only blanks around it.
-/

namespace Margins

variable {α : Type*}

/-- The text without the blanks at its ends. -/
def trim (blank : α → Bool) (str : List α) : List α :=
  (str.dropWhile blank).rdropWhile blank

/-- A text of blanks. -/
def Blank (blank : α → Bool) (str : List α) : Prop := ∀ a ∈ str, blank a = true

/-- There are no blanks at the ends. -/
def Trimmed (blank : α → Bool) (str : List α) : Prop :=
  (∀ a ∈ str.head?, blank a = false) ∧ ∀ a ∈ str.getLast?, blank a = false

/-- The text is its core with blanks around it. -/
structure Padded (blank : α → Bool) (core str : List α) : Prop where
  trimmed : Trimmed blank core
  exists_blanks : ∃ before behind, Blank blank before ∧ Blank blank behind ∧
    str = before ++ (core ++ behind)

variable {blank : α → Bool} {core str : List α}

theorem Blank.reverse (h : Blank blank str) : Blank blank str.reverse :=
  fun a ha => h a (List.mem_reverse.mp ha)

theorem blank_takeWhile (blank : α → Bool) (str : List α) :
    Blank blank (str.takeWhile blank) := fun _ h => List.mem_takeWhile_imp h

theorem dropWhile_of_head (h : ∀ a ∈ str.head?, blank a = false) : str.dropWhile blank = str := by
  cases str with
  | nil => rfl
  | cons a str =>
      exact List.dropWhile_cons_of_neg (by rw [h a rfl]; exact Bool.false_ne_true)

theorem head_dropWhile (blank : α → Bool) (str : List α) :
    ∀ a ∈ (str.dropWhile blank).head?, blank a = false := by
  intro a ha
  have hnot := List.head?_dropWhile_not blank str
  rw [ha] at hnot
  exact hnot

theorem trim_of_padded (h : Padded blank core str) : trim blank str = core := by
  obtain ⟨hcore, before, behind, hbefore, hbehind, rfl⟩ := h
  rw [trim, List.dropWhile_append_of_pos hbefore]
  by_cases hnil : core = []
  · have hdrop : behind.dropWhile blank = [] := List.dropWhile_eq_nil_iff.mpr hbehind
    rw [hnil, List.nil_append, hdrop, List.rdropWhile_nil]
  · have hhead : ∀ a ∈ (core ++ behind).head?, blank a = false := by
      rw [List.head?_append_of_ne_nil core hnil]
      exact hcore.1
    have hlast : ∀ a ∈ core.reverse.head?, blank a = false := by
      rw [List.head?_reverse]
      exact hcore.2
    rw [dropWhile_of_head hhead, List.rdropWhile, List.reverse_append,
      List.dropWhile_append_of_pos hbehind.reverse, dropWhile_of_head hlast, List.reverse_reverse]

/-- What trimming leaves is the core. -/
theorem padded_trim (blank : α → Bool) (str : List α) : Padded blank (trim blank str) str := by
  have hsplit := List.takeWhile_append_dropWhile (p := blank) (l := str)
  have hhead := head_dropWhile blank str
  rw [trim, List.rdropWhile]
  generalize str.dropWhile blank = rest at hsplit hhead ⊢
  have hsplit' := List.takeWhile_append_dropWhile (p := blank) (l := rest.reverse)
  have hlast := head_dropWhile blank rest.reverse
  have hmargin := (blank_takeWhile blank rest.reverse).reverse
  rw [← List.reverse_inj, List.reverse_append, List.reverse_reverse] at hsplit'
  generalize rest.reverse.dropWhile blank = revCore at hsplit' hlast ⊢
  generalize (rest.reverse.takeWhile blank).reverse = behind at hsplit' hmargin
  refine ⟨⟨fun a ha => hhead a ?_, ?_⟩, str.takeWhile blank, behind, blank_takeWhile blank str,
    hmargin, ?_⟩
  · rw [← hsplit', List.head?_append_of_ne_nil]
    · exact ha
    · intro hnil
      rw [hnil] at ha
      cases ha
  · rw [List.getLast?_reverse]
    exact hlast
  · rw [hsplit', hsplit]

/-- A text has one core, which trimming finds. -/
theorem padded_iff : Padded blank core str ↔ trim blank str = core := by
  refine ⟨trim_of_padded, ?_⟩
  rintro rfl
  exact padded_trim blank str

end Margins
