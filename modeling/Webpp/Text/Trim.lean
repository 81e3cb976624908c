import Mathlib.Data.List.DropRight
import Mathlib.Data.List.Basic

/-!
# Trimming

The overloads of `ltrim`, `rtrim` and `trim` over pairs of iterators, over string views and over
strings. The iterators ask the charset about each character. The views and the strings give it to
a search as a pointer, and only `ltrim` of a view says how many characters are behind it: for the
others, the charset ends where its first NUL is.
-/

namespace Webpp.Text.Trim

variable {α : Type*} [DecidableEq α] {set str : List α}

/-! ## Pairs of iterators -/

/-- The characters from the position `first` up to the position `last`. -/
def range (buf : List α) (first last : ℕ) : List α := (buf.take last).drop first

/-- `ltrim(begin, end)` with so many characters in between: the new `begin`. -/
def ltrimIter (whitespaces buf : List α) (first : ℕ) : ℕ → ℕ
  | 0 => first
  | count + 1 =>
    if buf[first]?.any (· ∈ whitespaces) then ltrimIter whitespaces buf (first + 1) count
    else first

/-- `rtrim(begin, end)` with so many characters in between: the new `end`. -/
def rtrimIter (whitespaces buf : List α) (first : ℕ) : ℕ → ℕ
  | 0 => first
  | count + 1 =>
    if buf[first + count]?.any (· ∈ whitespaces) then rtrimIter whitespaces buf first count
    else first + (count + 1)

section Iterators

variable {whitespaces buf : List α} {first last : ℕ}

omit [DecidableEq α] in
theorem range_eq_cons (h : first < last) (hlast : last ≤ buf.length) :
    ∃ c, buf[first]? = some c ∧ range buf first last = c :: range buf (first + 1) last := by
  have hlen : first < (buf.take last).length := by rw [List.length_take]; omega
  refine ⟨buf[first], List.getElem?_eq_getElem (by omega), ?_⟩
  rw [range, List.drop_eq_getElem_cons hlen, List.getElem_take]
  rfl

omit [DecidableEq α] in
theorem range_succ (h : first ≤ last) (hlast : last < buf.length) :
    ∃ c, buf[last]? = some c ∧ range buf first (last + 1) = range buf first last ++ [c] := by
  refine ⟨buf[last], List.getElem?_eq_getElem hlast, ?_⟩
  rw [range, ← List.take_append_getElem hlast, List.drop_append_of_le_length]
  · rfl
  · rw [List.length_take]
    omega

omit [DecidableEq α] in
theorem range_self (buf : List α) (first : ℕ) : range buf first first = [] :=
  List.drop_eq_nil_of_le (by rw [List.length_take]; omega)

theorem ltrimIter_le (whitespaces buf : List α) (first count : ℕ) :
    first ≤ ltrimIter whitespaces buf first count ∧
      ltrimIter whitespaces buf first count ≤ first + count := by
  induction count generalizing first with
  | zero => exact ⟨le_rfl, le_rfl⟩
  | succ count ih =>
    rw [ltrimIter]
    split
    · exact ⟨by have := (ih (first + 1)).1; omega, by have := (ih (first + 1)).2; omega⟩
    · exact ⟨le_rfl, by omega⟩

theorem range_ltrimIter (whitespaces : List α) {count : ℕ} (h : first + count ≤ buf.length) :
    range buf (ltrimIter whitespaces buf first count) (first + count) =
      (range buf first (first + count)).dropWhile (· ∈ whitespaces) := by
  induction count generalizing first with
  | zero => simp [ltrimIter, range_self]
  | succ count ih =>
    obtain ⟨c, hc, hrange⟩ := range_eq_cons (show first < first + (count + 1) by omega) h
    rw [ltrimIter, hc, hrange, List.dropWhile_cons]
    by_cases hw : c ∈ whitespaces
    · have hnext := @ih (first + 1) (by omega)
      rw [show first + 1 + count = first + (count + 1) by omega] at hnext
      simpa [hw] using hnext
    · simp [hw, hrange]

theorem range_rtrimIter (whitespaces : List α) {count : ℕ} (h : first + count ≤ buf.length) :
    range buf first (rtrimIter whitespaces buf first count) =
      (range buf first (first + count)).rdropWhile (· ∈ whitespaces) := by
  induction count with
  | zero => simp [rtrimIter, range_self]
  | succ count ih =>
    obtain ⟨c, hc, hrange⟩ := range_succ (show first ≤ first + count by omega)
      (show first + count < buf.length by omega)
    rw [rtrimIter, hc, ← Nat.add_assoc, hrange, List.rdropWhile_concat]
    by_cases hw : c ∈ whitespaces
    · simpa [hw] using ih (by omega)
    · simp [hw, hrange]

end Iterators

/-! ## Searches with a charset -/

/-- `find_first_not_of`, without a value for `npos`. -/
def findFirstNotOf (set str : List α) : Option ℕ := str.findIdx? (· ∉ set)

def findLastNotOf (set str : List α) : Option ℕ :=
  (str.reverse.findIdx? (· ∉ set)).map (str.length - 1 - ·)

/-- What a search reads when it is given `whitespaces.data()` alone: the characters in front of
the first NUL. Without a value, it reads on behind the last character of the charset. -/
def cString (nul : α) (whitespaces : List α) : Option (List α) :=
  if nul ∈ whitespaces then some (whitespaces.takeWhile (· ≠ nul)) else none

theorem drop_of_findFirstNotOf {i : ℕ} (h : findFirstNotOf set str = some i) :
    str.drop i = str.dropWhile (· ∈ set) := by
  rw [findFirstNotOf, List.findIdx?_eq_some_iff_findIdx_eq] at h
  rw [List.dropWhile_eq_drop_findIdx_not, ← h.2]
  simp

theorem findFirstNotOf_eq_none_iff :
    findFirstNotOf set str = none ↔ ∀ c ∈ str, c ∈ set := by
  simp [findFirstNotOf]

theorem take_of_findLastNotOf {i : ℕ} (h : findLastNotOf set str = some i) :
    i < str.length ∧ str.take (i + 1) = str.rdropWhile (· ∈ set) := by
  obtain ⟨j, hj, rfl⟩ := Option.map_eq_some_iff.mp h
  have hlt := (List.findIdx?_eq_some_iff_findIdx_eq.mp hj).1
  rw [List.length_reverse] at hlt
  refine ⟨by omega, ?_⟩
  rw [List.rdropWhile, ← drop_of_findFirstNotOf hj, List.drop_reverse, List.reverse_reverse]
  congr 1
  omega

theorem rdropWhile_of_findLastNotOf (h : findLastNotOf set str = none) :
    str.rdropWhile (· ∈ set) = [] := by
  rw [findLastNotOf, Option.map_eq_none_iff] at h
  rw [List.rdropWhile_eq_nil_iff]
  simpa using h

/-! ## Views -/

/-- `ltrim` of a view -/
def ltrimView (whitespaces str : List α) : List α :=
  match findFirstNotOf whitespaces str with
  | some found => str.drop (min found str.length)
  | none => str.drop str.length

/-- `rtrim` of a view -/
def rtrimView (nul : α) (whitespaces str : List α) : Option (List α) :=
  (cString nul whitespaces).map fun set =>
    match findLastNotOf set str with
    | some found => str.rdrop (str.length - found - 1)
    | none => str.rdrop str.length

/-- `trim` of a view -/
def trimView (nul : α) (whitespaces str : List α) : Option (List α) :=
  rtrimView nul whitespaces (ltrimView whitespaces str)

/-! ## Strings -/

/-- `ltrim` of a string -/
def ltrimString (nul : α) (whitespaces inpStr : List α) : Option (List α) :=
  (cString nul whitespaces).map fun set =>
    match findFirstNotOf set inpStr with
    | some pos => inpStr.drop pos
    | none => inpStr

/-- `rtrim` of a string -/
def rtrimString (nul : α) (whitespaces inpStr : List α) : Option (List α) :=
  (cString nul whitespaces).map fun set =>
    match findLastNotOf set inpStr with
    | none => []
    | some pos => inpStr.take (pos + 1)

/-- `trim` of a string -/
def trimString (nul : α) (whitespaces inpStr : List α) : Option (List α) :=
  (ltrimString nul whitespaces inpStr).bind (rtrimString nul whitespaces)

/-! ## The families of overloads -/

/-- The three operations of one family, from a charset and a text. -/
structure Overloads (α : Type*) where
  ltrim : List α → List α → Option (List α)
  rtrim : List α → List α → Option (List α)
  trim : List α → List α → Option (List α)

/-- The overloads over iterators, applied to a whole text. -/
def iterators : Overloads α where
  ltrim whitespaces str := some (range str (ltrimIter whitespaces str 0 str.length) str.length)
  rtrim whitespaces str := some (range str 0 (rtrimIter whitespaces str 0 str.length))
  trim whitespaces str :=
    let first := ltrimIter whitespaces str 0 str.length
    some (range str first (rtrimIter whitespaces str first (str.length - first)))

def views (nul : α) : Overloads α where
  ltrim whitespaces str := some (ltrimView whitespaces str)
  rtrim := rtrimView nul
  trim := trimView nul

/-- `ltrim_copy`, `rtrim_copy` and `trim_copy`: a view of the text is trimmed. -/
def viewCopies (nul : α) : Overloads α := views nul

def strings (nul : α) : Overloads α where
  ltrim := ltrimString nul
  rtrim := rtrimString nul
  trim := trimString nul

/-- The copying overloads with an allocator: a string with the text is trimmed. -/
def stringCopies (nul : α) : Overloads α := strings nul

def overloads (nul : α) : List (Overloads α) :=
  [iterators, views nul, viewCopies nul, strings nul, stringCopies nul]

/-- The family removes the whitespaces at the start, at the end and at both of them, and nothing
else. -/
def Overloads.Trims (family : Overloads α) (whitespaces str : List α) : Prop :=
  family.ltrim whitespaces str = some (str.dropWhile (· ∈ whitespaces)) ∧
    family.rtrim whitespaces str = some (str.rdropWhile (· ∈ whitespaces)) ∧
    family.trim whitespaces str =
      some ((str.dropWhile (· ∈ whitespaces)).rdropWhile (· ∈ whitespaces))

theorem iterators_trims (whitespaces str : List α) : iterators.Trims whitespaces str := by
  have hwhole : range str 0 str.length = str := by simp [range]
  have hl := range_ltrimIter whitespaces (show 0 + str.length ≤ str.length by omega)
  have hr := range_rtrimIter whitespaces (show 0 + str.length ≤ str.length by omega)
  rw [Nat.zero_add, hwhole] at hl hr
  refine ⟨congrArg some hl, congrArg some hr, congrArg some ?_⟩
  have hle := (ltrimIter_le whitespaces str 0 str.length).2
  have hwidth : ltrimIter whitespaces str 0 str.length +
      (str.length - ltrimIter whitespaces str 0 str.length) ≤ str.length := by omega
  have hboth := range_rtrimIter whitespaces hwidth
  rw [Nat.add_sub_cancel' (by omega), hl] at hboth
  exact hboth

/-! ## What the views and the strings remove -/

section Searches

variable {nul : α} {whitespaces set str : List α}

theorem ltrimView_eq (whitespaces str : List α) :
    ltrimView whitespaces str = str.dropWhile (· ∈ whitespaces) := by
  rw [ltrimView]
  cases h : findFirstNotOf whitespaces str with
  | none =>
    rw [List.drop_length, eq_comm, List.dropWhile_eq_nil_iff]
    simpa using findFirstNotOf_eq_none_iff.mp h
  | some found =>
    have hlt := (List.findIdx?_eq_some_iff_findIdx_eq.mp h).1
    dsimp only
    rw [Nat.min_eq_left hlt.le]
    exact drop_of_findFirstNotOf h

theorem rtrimView_eq (h : cString nul whitespaces = some set) (str : List α) :
    rtrimView nul whitespaces str = some (str.rdropWhile (· ∈ set)) := by
  rw [rtrimView, h, Option.map_some]
  cases hfound : findLastNotOf set str with
  | none => rw [rdropWhile_of_findLastNotOf hfound, List.rdrop, Nat.sub_self, List.take_zero]
  | some found =>
    obtain ⟨hlt, htake⟩ := take_of_findLastNotOf hfound
    dsimp only
    rw [← htake, List.rdrop, show str.length - (str.length - found - 1) = found + 1 by omega]

theorem rtrimString_eq (h : cString nul whitespaces = some set) (str : List α) :
    rtrimString nul whitespaces str = some (str.rdropWhile (· ∈ set)) := by
  rw [rtrimString, h, Option.map_some]
  cases hfound : findLastNotOf set str with
  | none => rw [rdropWhile_of_findLastNotOf hfound]
  | some found =>
    dsimp only
    rw [(take_of_findLastNotOf hfound).2]

/-- `ltrim` of a string leaves a string alone that has whitespaces only. -/
theorem ltrimString_eq (h : cString nul whitespaces = some set) (str : List α) :
    ltrimString nul whitespaces str =
      some (if ∀ c ∈ str, c ∈ set then str else str.dropWhile (· ∈ set)) := by
  rw [ltrimString, h, Option.map_some]
  cases hfound : findFirstNotOf set str with
  | none => rw [if_pos (findFirstNotOf_eq_none_iff.mp hfound)]
  | some found =>
    have hnot : ¬ ∀ c ∈ str, c ∈ set := by
      rw [← findFirstNotOf_eq_none_iff, hfound]
      exact Option.some_ne_none found
    dsimp only
    rw [if_neg hnot, drop_of_findFirstNotOf hfound]

/-- Two sets of characters remove the same start of a text, where the first character that is
not in the smaller one is not in the larger one either. -/
theorem dropWhile_eq_iff (hset : ∀ c ∈ set, c ∈ whitespaces) :
    str.dropWhile (· ∈ set) = str.dropWhile (· ∈ whitespaces) ↔
      ∀ c ∈ str.find? (· ∉ set), c ∉ whitespaces := by
  induction str with
  | nil => simp
  | cons a str ih =>
    by_cases ha : a ∈ set
    · simpa [ha, hset a ha] using ih
    · by_cases hw : a ∈ whitespaces
      · have hlen : a :: str ≠ str.dropWhile (· ∈ whitespaces) := by
          intro heq
          have hle :=
            (List.dropWhile_suffix (l := str) (fun c => decide (c ∈ whitespaces))).length_le
          rw [← heq, List.length_cons] at hle
          omega
        simpa [ha, hw] using hlen
      · simp [ha, hw]

theorem rdropWhile_eq_iff (hset : ∀ c ∈ set, c ∈ whitespaces) :
    str.rdropWhile (· ∈ set) = str.rdropWhile (· ∈ whitespaces) ↔
      ∀ c ∈ str.reverse.find? (· ∉ set), c ∉ whitespaces := by
  rw [List.rdropWhile, List.rdropWhile, List.reverse_inj, dropWhile_eq_iff hset]

theorem mem_of_cString (h : cString nul whitespaces = some set) :
    ∀ c ∈ set, c ∈ whitespaces := by
  intro c hc
  rw [cString] at h
  split_ifs at h
  cases h
  exact (List.takeWhile_prefix _).subset hc

end Searches

/-! ## Where the families agree -/

/-- The charset has a NUL, and a text that is not empty has a first and a last character that is
not among the characters in front of the NUL, and is none of the characters behind it. -/
def Reads (nul : α) (whitespaces str : List α) : Prop :=
  nul ∈ whitespaces ∧
    (str = [] ∨
      (∃ c ∈ str.find? (· ∉ whitespaces.takeWhile (· ≠ nul)), c ∉ whitespaces) ∧
        ∃ c ∈ str.reverse.find? (· ∉ whitespaces.takeWhile (· ≠ nul)), c ∉ whitespaces)

section Agree

variable {nul : α} {whitespaces set str : List α}

theorem strings_trims_reads (h : (strings nul).Trims whitespaces str) :
    Reads nul whitespaces str := by
  obtain ⟨hl, hr, -⟩ := h
  cases hset : cString nul whitespaces with
  | none => simp [strings, ltrimString, hset] at hl
  | some set =>
    have hmem : nul ∈ whitespaces ∧ whitespaces.takeWhile (· ≠ nul) = set := by
      rw [cString] at hset
      split_ifs at hset with hnul
      exact ⟨hnul, Option.some_inj.mp hset⟩
    have hsub := mem_of_cString hset
    simp only [strings, ltrimString_eq hset, rtrimString_eq hset, Option.some_inj] at hl hr
    refine ⟨hmem.1, ?_⟩
    rw [hmem.2]
    by_cases hall : ∀ c ∈ str, c ∈ set
    · -- nothing but whitespaces: the string is left alone, and has to be empty
      rw [if_pos hall] at hl
      refine Or.inl (hl.trans ?_)
      rw [List.dropWhile_eq_nil_iff]
      exact fun c hc => decide_eq_true (hsub c (hall c hc))
    · rw [if_neg hall, dropWhile_eq_iff hsub] at hl
      rw [rdropWhile_eq_iff hsub] at hr
      push Not at hall
      obtain ⟨c, hc, hnot⟩ := hall
      have hfirst : (str.find? (· ∉ set)).isSome :=
        List.find?_isSome.mpr ⟨c, hc, decide_eq_true hnot⟩
      have hlast : (str.reverse.find? (· ∉ set)).isSome :=
        List.find?_isSome.mpr ⟨c, List.mem_reverse.mpr hc, decide_eq_true hnot⟩
      obtain ⟨first, hfirst⟩ := Option.isSome_iff_exists.mp hfirst
      obtain ⟨last, hlast⟩ := Option.isSome_iff_exists.mp hlast
      exact Or.inr ⟨⟨first, hfirst, hl first hfirst⟩, ⟨last, hlast, hr last hlast⟩⟩

theorem exists_cString (h : nul ∈ whitespaces) :
    cString nul whitespaces = some (whitespaces.takeWhile (· ≠ nul)) := by
  rw [cString, if_pos h]

theorem rdropWhile_dropWhile_eq (hset : ∀ c ∈ set, c ∈ whitespaces)
    (hlast : ∀ c ∈ str.reverse.find? (· ∉ set), c ∉ whitespaces) :
    (str.dropWhile (· ∈ whitespaces)).rdropWhile (· ∈ set) =
      (str.dropWhile (· ∈ whitespaces)).rdropWhile (· ∈ whitespaces) := by
  rw [rdropWhile_eq_iff hset]
  intro c hc
  refine hlast c ?_
  obtain ⟨pre, hpre⟩ := List.dropWhile_suffix (l := str) (fun c => decide (c ∈ whitespaces))
  rw [← hpre, List.reverse_append, List.find?_append, Option.mem_def.mp hc]
  rfl

theorem Reads.last_notMem (h : Reads nul whitespaces str) :
    ∀ c ∈ str.reverse.find? (· ∉ whitespaces.takeWhile (· ≠ nul)), c ∉ whitespaces := by
  obtain ⟨-, rfl | ⟨-, last, hlast, hnot⟩⟩ := h
  · simp
  · intro c hc
    exact Option.mem_unique hlast hc ▸ hnot

theorem views_trims (h : Reads nul whitespaces str) : (views nul).Trims whitespaces str := by
  have hset := exists_cString h.1
  have hlast := h.last_notMem
  refine ⟨congrArg some (ltrimView_eq whitespaces str), ?_, ?_⟩
  · exact (rtrimView_eq hset str).trans
      (congrArg some ((rdropWhile_eq_iff (mem_of_cString hset)).mpr hlast))
  · have hboth := rtrimView_eq hset (ltrimView whitespaces str)
    rw [ltrimView_eq, rdropWhile_dropWhile_eq (mem_of_cString hset) hlast, ← ltrimView_eq] at hboth
    rw [← ltrimView_eq]
    exact hboth

theorem Reads.ltrimString (h : Reads nul whitespaces str) :
    ltrimString nul whitespaces str = some (str.dropWhile (· ∈ whitespaces)) := by
  have hset := exists_cString h.1
  rw [ltrimString_eq hset]
  obtain ⟨-, rfl | ⟨⟨first, hfirst, hnot⟩, -⟩⟩ := h
  · simp
  · have hsome := List.find?_some hfirst
    have hall : ¬ ∀ c ∈ str, c ∈ whitespaces.takeWhile (· ≠ nul) := fun hall =>
      of_decide_eq_true hsome (hall first (List.mem_of_find?_eq_some hfirst))
    rw [if_neg hall, (dropWhile_eq_iff (mem_of_cString hset)).mpr]
    intro c hc
    exact Option.mem_unique hfirst hc ▸ hnot

theorem strings_trims (h : Reads nul whitespaces str) : (strings nul).Trims whitespaces str := by
  have hset := exists_cString h.1
  have hlast := h.last_notMem
  refine ⟨h.ltrimString, ?_, ?_⟩
  · exact (rtrimString_eq hset str).trans
      (congrArg some ((rdropWhile_eq_iff (mem_of_cString hset)).mpr hlast))
  · have hboth := rtrimString_eq hset (str.dropWhile (· ∈ whitespaces))
    rw [rdropWhile_dropWhile_eq (mem_of_cString hset) hlast] at hboth
    exact (congrArg (·.bind (rtrimString nul whitespaces)) h.ltrimString).trans hboth

/-- All the families trim a text, if and only if the searches read the charset. -/
theorem trims_iff_reads (nul : α) (whitespaces str : List α) :
    (∀ family ∈ overloads nul, family.Trims whitespaces str) ↔ Reads nul whitespaces str := by
  constructor
  · intro h
    exact strings_trims_reads (h (strings nul) (by simp [overloads]))
  · intro h family hfamily
    simp only [overloads, List.mem_cons, List.not_mem_nil, or_false] at hfamily
    obtain rfl | rfl | rfl | rfl | rfl := hfamily
    · exact iterators_trims whitespaces str
    · exact views_trims h
    · exact views_trims h
    · exact strings_trims h
    · exact strings_trims h

end Agree

/-! ## The standard whitespaces -/

def standardWhitespaces : List Char := [' ', '\n', '\r', '\t', '\x0c', '\x0b']

/-- `rtrim` of a view reads on behind the standard whitespaces, and `ltrim` of a string leaves two
blanks alone, when the charset has a NUL. -/
theorem rtrimView_standardWhitespaces :
    (¬ ∀ family ∈ overloads '\x00', family.Trims standardWhitespaces ['a', ' ']) ∧
      rtrimView '\x00' standardWhitespaces ['a', ' '] = none ∧
      ltrimString '\x00' [' ', '\x00'] [' ', ' '] = some [' ', ' '] := by
  refine ⟨?_, by decide, by decide⟩
  intro h
  exact absurd (h (views '\x00') (by simp [overloads])).2.1 (by decide)

def whitespace (inpChar : Char) : Bool := standardWhitespaces.contains inpChar

/-- `ltrimmed`: it reads the first character, and there may be none. -/
def ltrimmed (str : List Char) : Option Bool := str.head?.map (!whitespace ·)

def rtrimmed (str : List Char) : Option Bool := str.getLast?.map (!whitespace ·)

def trimmed (str : List Char) : Option Bool :=
  (ltrimmed str).bind fun left => if left then rtrimmed str else some false

end Webpp.Text.Trim
