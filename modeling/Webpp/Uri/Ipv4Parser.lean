import Mathlib.Algebra.BigOperators.Group.List.Basic
import Webpp.Text.Digits

/-!
# The IPv4 address of a host

The parser of IPv4 addresses that URLs are specified by, and the check that sends a host to
it. A host is one to four numbers with dots between them, each of them decimal, octal or
hexadecimal. The last number fills the bytes that the others leave.
-/

namespace Webpp.Uri.Ipv4

open Webpp.Text

variable {part : List Char}

/-! ## Numbers -/

/-- The value of a text of digits, behind digits of the value `n`. -/
def numeral (digit : Char → Option ℕ) (base : ℕ) : ℕ → List Char → Option ℕ
  | n, [] => some n
  | n, c :: text => (digit c).bind fun d => numeral digit base (n * base + d) text

/-- The base of a number, and its digits. -/
def numberBase : List Char → ℕ × List Char
  | '0' :: c :: digits => if c = 'x' ∨ c = 'X' then (16, digits) else (8, c :: digits)
  | digits => (10, digits)

/-- A number whose digits in each base are given. -/
def numberWith (digit : ℕ → Char → Option ℕ) (part : List Char) : Option ℕ :=
  if part = [] then none
  else numeral (digit (numberBase part).1) (numberBase part).1 0 (numberBase part).2

def radixDigit (base : ℕ) (c : Char) : Option ℕ := (hexDigitSafe c).filter (· < base)

/-- The IPv4 number parser. -/
def ipv4Number : List Char → Option ℕ := numberWith radixDigit

/-! ## Addresses -/

def labels (host : List Char) : List (List Char) := host.splitOn '.'

/-- The labels without an empty one at the end, unless it is the only one. -/
def dropEmptyLast : List (List Char) → List (List Char)
  | part :: next :: more =>
      if next = [] ∧ more = [] then [part] else part :: dropEmptyLast (next :: more)
  | parts => parts

def parts (host : List Char) : List (List Char) := dropEmptyLast (labels host)

/-- The address of at most four numbers. -/
def address (numbers : List ℕ) : Option ℕ :=
  if (∀ n ∈ numbers.dropLast, n ≤ 255) ∧ numbers.getLastD 0 < 256 ^ (5 - numbers.length) then
    some (numbers.getLastD 0 +
      (numbers.dropLast.zipIdx.map fun n => n.1 * 256 ^ (3 - n.2)).sum)
  else none

/-- The IPv4 parser, for the numbers that `number` reads. -/
def parserWith (number : List Char → Option ℕ) (host : List Char) : Option ℕ :=
  if (parts host).length ≤ 4 then ((parts host).mapM number).bind address else none

def ipv4Parser : List Char → Option ℕ := parserWith ipv4Number

/-- The bytes of an address, the highest first. -/
def bytes (address : ℕ) : List ℕ := [3, 2, 1, 0].map fun i => address / 256 ^ i % 256

/-- The ends-in-a-number checker. -/
def endsInNumber (host : List Char) : Bool :=
  let last := (parts host).getLastD []
  (!last.isEmpty && last.all isDigit) || (ipv4Number last).isSome

/-! ## Numbers and their digits -/

section Numbers

variable {digit : Char → Option ℕ} {base n v : ℕ} {c : Char} {text : List Char}

theorem numeral_cons_of_some {d : ℕ} (h : digit c = some d) :
    numeral digit base n (c :: text) = numeral digit base (n * base + d) text := by
  rw [numeral, h]
  rfl

theorem numeral_cons_of_none (h : digit c = none) :
    numeral digit base n (c :: text) = none := by
  rw [numeral, h]
  rfl

theorem le_of_numeral (hbase : 0 < base) (h : numeral digit base n text = some v) : n ≤ v := by
  induction text generalizing n with
  | nil =>
      rw [numeral] at h
      exact (Option.some.inj h).le
  | cons c text ih =>
      cases hd : digit c with
      | none =>
          rw [numeral_cons_of_none hd] at h
          cases h
      | some d =>
          rw [numeral_cons_of_some hd] at h
          exact ((Nat.le_mul_of_pos_right n hbase).trans (Nat.le_add_right _ d)).trans (ih h)

theorem numeral_congr {digit' : Char → Option ℕ} (h : ∀ c ∈ text, digit c = digit' c) :
    numeral digit base n text = numeral digit' base n text := by
  induction text generalizing n with
  | nil => rfl
  | cons c text ih =>
      have htext := fun m => @ih m fun d hd => h d (List.mem_cons_of_mem c hd)
      rw [numeral, numeral, h c List.mem_cons_self]
      exact congrArg _ (funext fun d => htext _)

theorem isSome_numeral_iff : (numeral digit base n text).isSome ↔ ∀ c ∈ text, (digit c).isSome := by
  induction text generalizing n with
  | nil => simp [numeral]
  | cons c text ih =>
      cases hd : digit c with
      | none => simp [numeral_cons_of_none hd, hd]
      | some d => simp [numeral_cons_of_some hd, hd, ih]

end Numbers

/-! ## Labels -/

theorem labels_ne_nil (host : List Char) : labels host ≠ [] := List.splitOn_ne_nil '.' host

theorem labels_of_not_mem (h : '.' ∉ part) : labels part = [part] :=
  List.splitOn_eq_singleton h

theorem labels_append_dot (h : '.' ∉ part) (rest : List Char) :
    labels (part ++ '.' :: rest) = part :: labels rest :=
  List.splitOn_append_cons_self_of_not_mem h rest

theorem parts_of_not_mem (h : '.' ∉ part) : parts part = [part] := by
  rw [parts, labels_of_not_mem h]
  rfl

theorem parts_dot (h : '.' ∉ part) : parts (part ++ ['.']) = [part] := by
  rw [parts, labels_append_dot h, labels_of_not_mem List.not_mem_nil]
  rfl

theorem parts_append_dot (h : '.' ∉ part) {rest : List Char} (hrest : rest ≠ []) :
    parts (part ++ '.' :: rest) = part :: parts rest := by
  rw [parts, parts, labels_append_dot h]
  cases hlabels : labels rest with
  | nil => exact absurd hlabels (labels_ne_nil rest)
  | cons next more =>
      have hno : ¬(next = [] ∧ more = []) := by
        rintro ⟨rfl, rfl⟩
        have hjoin : ['.'].intercalate (rest.splitOn '.') = rest := List.intercalate_splitOn '.'
        rw [show rest.splitOn '.' = [[]] from hlabels] at hjoin
        exact hrest hjoin.symm
      rw [dropEmptyLast, if_neg hno]

theorem dropEmptyLast_head? (parts : List (List Char)) :
    (dropEmptyLast parts).head? = parts.head? := by
  rw [dropEmptyLast.eq_def]
  split
  · split
    · rfl
    · rfl
  · rfl

theorem parts_ne_nil (host : List Char) : parts host ≠ [] := by
  intro h
  have hhead := dropEmptyLast_head? (labels host)
  rw [show dropEmptyLast (labels host) = [] from h] at hhead
  exact labels_ne_nil host (List.head?_eq_none_iff.mp hhead.symm)

theorem exists_label (host : List Char) :
    '.' ∉ host ∨ ∃ part rest, host = part ++ '.' :: rest ∧ '.' ∉ part := by
  by_cases h : '.' ∈ host
  · obtain ⟨part, rest, rfl, hpart⟩ := List.eq_append_cons_of_mem h
    exact .inr ⟨part, rest, rfl, hpart⟩
  · exact .inl h

/-- The label behind the last dot of a text. -/
def lastLabel (host : List Char) : List Char := (labels host).getLastD []

theorem lastLabel_of_not_mem {label : List Char} (h : '.' ∉ label) : lastLabel label = label := by
  rw [lastLabel, labels_of_not_mem h]
  rfl

theorem lastLabel_append_dot {label : List Char} (h : '.' ∉ label) (front : List Char) :
    lastLabel (front ++ '.' :: label) = label := by
  have hsplit : labels (front ++ '.' :: label) = labels front ++ labels label :=
    List.splitOn_append_cons_self front label
  rw [lastLabel, hsplit, labels_of_not_mem h, List.getLastD_concat]

theorem exists_lastLabel (host : List Char) :
    '.' ∉ host ∨ ∃ front label, host = front ++ '.' :: label ∧ '.' ∉ label := by
  by_cases h : '.' ∈ host
  · obtain ⟨label, front, heq, hlabel⟩ := List.eq_append_cons_of_mem (List.mem_reverse.mpr h)
    refine .inr ⟨front.reverse, label.reverse, ?_, fun hmem => hlabel (List.mem_reverse.mp hmem)⟩
    rw [← List.reverse_reverse host, heq]
    simp
  · exact .inl h

theorem dropEmptyLast_concat {parts : List (List Char)} (hparts : parts ≠ []) (part : List Char) :
    dropEmptyLast (parts ++ [part]) = if part = [] then parts else parts ++ [part] := by
  induction parts with
  | nil => exact absurd rfl hparts
  | cons first more ih =>
      cases more with
      | nil =>
          rw [List.singleton_append, dropEmptyLast]
          split
          · rename_i h
            rw [if_pos h.1]
          · rename_i h
            rw [if_neg fun hnil => h ⟨hnil, rfl⟩]
            rfl
      | cons next more =>
          have hno : ¬(next = [] ∧ more ++ [part] = []) := fun h =>
            absurd h.2 (List.append_ne_nil_of_right_ne_nil _ (List.cons_ne_nil _ _))
          have htail := ih (List.cons_ne_nil next more)
          rw [List.cons_append] at htail
          rw [List.cons_append, List.cons_append, dropEmptyLast, if_neg hno, htail]
          split
          · rfl
          · rfl

theorem parts_concat_dot (host : List Char) :
    (parts (host ++ ['.'])).getLastD [] = lastLabel host := by
  have hsplit : labels (host ++ ['.']) = labels host ++ [[]] :=
    List.splitOn_append_cons_self host []
  rw [parts, hsplit, dropEmptyLast_concat (labels_ne_nil host), if_pos rfl, lastLabel]

theorem parts_getLastD {host : List Char} (h : lastLabel host ≠ []) :
    (parts host).getLastD [] = lastLabel host := by
  rcases exists_lastLabel host with hdot | ⟨front, label, rfl, hlabel⟩
  · rw [parts_of_not_mem hdot, lastLabel_of_not_mem hdot]
    rfl
  · have hsplit : labels (front ++ '.' :: label) = labels front ++ [label] := by
      rw [← labels_of_not_mem hlabel]
      exact List.splitOn_append_cons_self front label
    rw [lastLabel_append_dot hlabel] at h ⊢
    rw [parts, hsplit, dropEmptyLast_concat (labels_ne_nil front), if_neg h, List.getLastD_concat]

/-- The first part is empty if the text has a dot in front. -/
theorem parts_head_eq_nil_iff {host next : List Char} {more : List (List Char)} (hhost : host ≠ [])
    (h : parts host = next :: more) : next = [] ↔ host.head? = some '.' := by
  have hhead : (labels host).head? = some next := by
    rw [← dropEmptyLast_head?, show dropEmptyLast (labels host) = next :: more from h]
    rfl
  rcases exists_label host with hdot | ⟨part, rest, rfl, hpart⟩
  · rw [labels_of_not_mem hdot] at hhead
    obtain rfl : host = next := Option.some.inj hhead
    refine iff_of_false hhost fun hfirst => hdot ?_
    exact List.mem_of_mem_head? (Option.mem_def.mpr hfirst)
  · rw [labels_append_dot hpart] at hhead
    obtain rfl : part = next := Option.some.inj hhead
    cases part with
    | nil => exact iff_of_true rfl rfl
    | cons c part =>
        refine iff_of_false (List.cons_ne_nil c part) fun hfirst => hpart ?_
        rw [Option.some.inj hfirst]
        exact List.mem_cons_self

end Webpp.Uri.Ipv4
