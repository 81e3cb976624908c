import Mathlib.Algebra.BigOperators.Group.List.Basic
import Mathlib.Algebra.GroupWithZero.Nat
import Mathlib.Data.List.TakeWhile

/-!
# Name and value fields

A text of fields is split at each `&`, and a field at its first `=` into a name and
a value. `Reading` describes a reader that goes through such a text from the left.
-/

namespace Webpp.Text

/-- The name and the value of a field; without a `=` the value is empty. -/
def splitField (field : List Char) : List Char × List Char :=
  (field.takeWhile (· ≠ '='), (field.dropWhile (· ≠ '=')).tail)

/-- The names and values of a text. -/
def splitFields (text : List Char) : List (List Char × List Char) :=
  (text.splitOn '&').map splitField

/-- A pair with a name or a value. -/
def isFilled (pair : List Char × List Char) : Bool := !(pair.1.isEmpty && pair.2.isEmpty)

/-- The number of characters of a text that are no separators. -/
def textCount (text : List Char) : ℕ := text.countP fun c => c ≠ '=' && c ≠ '&'

def pairCount (pair : List Char × List Char) : ℕ := textCount pair.1 + textCount pair.2

def pairsCount (pairs : List (List Char × List Char)) : ℕ := (pairs.map pairCount).sum

/-! ## One field -/

theorem splitField_of_not_mem {field : List Char} (h : '=' ∉ field) :
    splitField field = (field, []) := by
  have hall : ∀ c ∈ field, decide (c ≠ '=') = true := by
    intro c hc
    exact decide_eq_true fun heq => h (heq ▸ hc)
  rw [splitField, List.takeWhile_eq_self_iff.mpr hall, List.dropWhile_eq_nil_iff.mpr hall]
  rfl

theorem splitField_append_separator {name : List Char} (h : '=' ∉ name) (value : List Char) :
    splitField (name ++ '=' :: value) = (name, value) := by
  have hall : ∀ c ∈ name, decide (c ≠ '=') = true := by
    intro c hc
    exact decide_eq_true fun heq => h (heq ▸ hc)
  rw [splitField, List.takeWhile_append_of_pos hall, List.dropWhile_append_of_pos hall]
  simp

theorem exists_splitField (field : List Char) :
    ('=' ∉ field ∧ splitField field = (field, [])) ∨
      ∃ name value, field = name ++ '=' :: value ∧ '=' ∉ name ∧
        splitField field = (name, value) := by
  by_cases h : '=' ∈ field
  · obtain ⟨name, value, rfl, hname⟩ := List.eq_append_cons_of_mem h
    exact .inr ⟨name, value, rfl, hname, splitField_append_separator hname value⟩
  · exact .inl ⟨h, splitField_of_not_mem h⟩

/-- Text behind a `=` goes to the value. -/
theorem splitField_append_of_mem {field : List Char} (h : '=' ∈ field) (chars : List Char) :
    splitField (field ++ chars) =
      ((splitField field).1, (splitField field).2 ++ chars) := by
  obtain ⟨name, value, rfl, hname⟩ := List.eq_append_cons_of_mem h
  rw [List.append_assoc, List.cons_append, splitField_append_separator hname,
    splitField_append_separator hname]

theorem textCount_append (s t : List Char) : textCount (s ++ t) = textCount s + textCount t :=
  List.countP_append

theorem textCount_cons (c : Char) (s : List Char) :
    textCount (c :: s) = (if c ≠ '=' && c ≠ '&' then 1 else 0) + textCount s := by
  rw [textCount, List.countP_cons, Nat.add_comm]
  rfl

theorem pairCount_splitField (field : List Char) :
    pairCount (splitField field) = textCount field := by
  rcases exists_splitField field with ⟨_, h⟩ | ⟨name, value, rfl, _, h⟩
  · rw [h]
    rfl
  · rw [h, textCount_append, textCount_cons]
    simp [pairCount]

/-! ## All fields -/

theorem pairsCount_append (s t : List (List Char × List Char)) :
    pairsCount (s ++ t) = pairsCount s + pairsCount t := by
  rw [pairsCount, List.map_append, List.sum_append]
  rfl

theorem pairsCount_singleton (pair : List Char × List Char) :
    pairsCount [pair] = pairCount pair := by
  simp [pairsCount]

theorem pairsCount_perm {s t : List (List Char × List Char)} (h : s.Perm t) :
    pairsCount s = pairsCount t := (h.map pairCount).sum_eq

theorem pairsCount_filter_isFilled (pairs : List (List Char × List Char)) :
    pairsCount (pairs.filter isFilled) = pairsCount pairs := by
  induction pairs with
  | nil => rfl
  | cons pair pairs ih =>
      have hcons : pairsCount (pair :: pairs) = pairCount pair + pairsCount pairs :=
        List.sum_cons
      cases h : isFilled pair with
      | true =>
          rw [List.filter_cons_of_pos h, hcons, ← ih]
          exact List.sum_cons
      | false =>
          have hblank : pair = ([], []) := by
            simpa [isFilled, Prod.ext_iff] using h
          rw [List.filter_cons_of_neg (by rw [h]; exact Bool.false_ne_true), ih, hcons, hblank]
          exact (Nat.zero_add _).symm

theorem sum_textCount_splitOn (text : List Char) :
    ((text.splitOn '&').map textCount).sum = textCount text := by
  induction text with
  | nil => rfl
  | cons c text ih =>
      rw [List.splitOn_cons_eq_if_modifyHead, textCount_cons, ← ih]
      by_cases hc : c = '&'
      · rw [if_pos (beq_iff_eq.mpr hc), List.map_cons, List.sum_cons, hc]
        rfl
      · rw [if_neg (by rw [beq_iff_eq]; exact hc)]
        cases hsplit : text.splitOn '&' with
        | nil => exact absurd hsplit (List.splitOn_ne_nil '&' text)
        | cons field fields =>
            rw [List.modifyHead_cons, List.map_cons, List.sum_cons, List.map_cons,
              List.sum_cons, textCount_cons, Nat.add_assoc]

theorem pairsCount_splitFields (text : List Char) :
    pairsCount (splitFields text) = textCount text := by
  rw [pairsCount, splitFields, List.map_map, ← sum_textCount_splitOn]
  exact congrArg List.sum (List.map_congr_left fun field _ => pairCount_splitField field)

/-- A field is blank if it is empty or a lone `=`. -/
theorem isFilled_splitField_eq_false (field : List Char) :
    isFilled (splitField field) = false ↔ field = [] ∨ field = ['='] := by
  rcases exists_splitField field with ⟨hmem, h⟩ | ⟨name, value, rfl, hmem, h⟩
  · rw [h]
    constructor
    · intro hblank
      exact .inl (by simpa [isFilled] using hblank)
    · rintro (rfl | rfl)
      · rfl
      · exact absurd (List.mem_singleton_self _) hmem
  · rw [h]
    cases name with
    | nil => simp [isFilled]
    | cons c name => simp [isFilled]

/-- The text behind the last `&`. -/
def lastField (text : List Char) : List Char := (text.reverse.takeWhile (· ≠ '&')).reverse

theorem lastField_append {chars : List Char} (h : '&' ∉ chars) (text : List Char) :
    lastField (text ++ chars) = lastField text ++ chars := by
  have hall : ∀ c ∈ chars.reverse, decide (c ≠ '&') = true := by
    intro c hc
    exact decide_eq_true fun heq => h (heq ▸ List.mem_reverse.mp hc)
  rw [lastField, List.reverse_append, List.takeWhile_append_of_pos hall, List.reverse_append,
    List.reverse_reverse]
  rfl

theorem lastField_amp (text : List Char) : lastField (text ++ ['&']) = [] := by
  simp [lastField]

theorem mem_of_mem_lastField {text : List Char} {c : Char} (h : c ∈ lastField text) :
    c ∈ text :=
  List.mem_reverse.mp ((List.takeWhile_sublist _).mem (List.mem_reverse.mp h))

/-! ## Reading a text character by character -/

/-- The fields of a text that has been read as far as `text`: the finished ones, and
the text of the one in progress. -/
structure Reading (text : List Char) (done : List (List Char)) (field : List Char) : Prop where
  split : ∀ rest, (text ++ rest).splitOn '&' = done ++ (field ++ rest).splitOn '&'
  not_mem : '&' ∉ field
  last : lastField text = field

theorem Reading.nil : Reading [] [] [] := ⟨fun _ => rfl, List.not_mem_nil, rfl⟩

namespace Reading

variable {text : List Char} {done : List (List Char)} {field : List Char}

theorem splitOn_eq (h : Reading text done field) : text.splitOn '&' = done ++ [field] := by
  have hsplit := h.split []
  rw [List.append_nil, List.append_nil, List.splitOn_eq_singleton h.not_mem] at hsplit
  exact hsplit

theorem splitFields_eq (h : Reading text done field) :
    splitFields text = done.map splitField ++ [splitField field] := by
  rw [splitFields, h.splitOn_eq, List.map_append, List.map_singleton]

theorem append (h : Reading text done field) {chars : List Char} (hchars : '&' ∉ chars) :
    Reading (text ++ chars) done (field ++ chars) where
  split rest := by
    rw [List.append_assoc, h.split, List.append_assoc]
  not_mem hmem := by
    rcases List.mem_append.mp hmem with hmem | hmem
    · exact h.not_mem hmem
    · exact hchars hmem
  last := by rw [lastField_append hchars, h.last]

/-- A `&` finishes the field. -/
theorem amp (h : Reading text done field) : Reading (text ++ ['&']) (done ++ [field]) [] where
  split rest := by
    rw [List.append_assoc, List.singleton_append, h.split,
      List.splitOn_append_cons_self_of_not_mem h.not_mem, List.nil_append, List.append_assoc,
      List.singleton_append]
  not_mem := List.not_mem_nil
  last := lastField_amp text

end Reading

end Webpp.Text
