import Webpp.Foundation.InPlace
import Webpp.Text.Casts

/-!
# `charset`, `charmap` and `bitmap`

A `charset` is the list of its characters, and the other two are tables with a cell for each
character below their size. All of them are built at compile time: where a constructor would write
outside of a table there is no set. A table is read at run time, and `contains` lets the size of the
table through as an index.
-/

namespace Webpp.Text.Charsets

open Ascii (CharType)
open Casts (char)
open InPlace (writeAll)

variable {sets : List (List ℤ)} {T : CharType} {first last : ℤ} {data : List ℤ} {S : CharType}

/-! ## Tables -/

/-- The values of a `charmap`, or the bits of a `bitmap`. -/
abbrev Table := List Bool

/-- `operator[]` at a character that is cast to `size_t` -/
def cell (t : Table) (pos : ℤ) : Option Bool := if 0 ≤ pos then t[pos.toNat]? else none

def setCell (t : Table) (pos : ℤ) : Option Table :=
  if 0 ≤ pos ∧ pos < t.length then some (t.set pos.toNat true) else none

def noCells (n : ℕ) : Table := List.replicate n false

/-- The cells of the characters are set, but for those that are skipped. -/
def setUnless (skip : ℤ → Option Bool) : List ℤ → Table → Option Table
  | [], t => some t
  | c :: chars, t => do
      if ← skip c then setUnless skip chars t
      else
        let t ← setCell t c
        setUnless skip chars t

/-- `webpp_set_at` -/
def setAll (chars : List ℤ) (t : Table) : Option Table := setUnless (fun _ => some false) chars t

/-- `webpp_xor_all`, and `operator|=` of a bitset -/
def orInto : Table → Table → Table
  | b :: out, b' :: set => (b || b') :: orInto out set
  | out, _ => out

/-- `numeric_limits` of the type of an argument -/
structure Limits where
  signed : Bool
  max : ℤ

def limits (T : CharType) : Limits := ⟨T.signed, T.lowest + 2 ^ T.bits - 1⟩

def boolLimits : Limits := ⟨false, 1⟩

def sizeLimits : Limits := limits ⟨false, 64, by decide⟩

/-- `contains`, which is the same function for both tables -/
def tableContains (l : Limits) (t : Table) (c : ℤ) : Option Bool :=
  if (l.signed ∨ (t.length : ℤ) < l.max) ∧ (c < 0 ∨ (t.length : ℤ) < c) then some false
  else cell t c

/-! ## Sets -/

inductive AnySet
  | charset (T : CharType) (data : List ℤ)
  | charmap (table : Table)
  | bitmap (table : Table)

namespace AnySet

/-- `contains` for an argument of a type with these limits. A `charset` compares it with its
characters after it has been cast to their type. -/
def contains (l : Limits) : AnySet → ℤ → Option Bool
  | charset T data, c => some (data.contains (T.cast c))
  | charmap table, c => tableContains l table c
  | bitmap table, c => tableContains l table c

/-- The character as `contains` gets it. -/
def received : AnySet → ℤ → ℤ
  | charset T _, c => T.cast c
  | charmap _, c => c
  | bitmap _, c => c

/-- The set has the character. -/
def Has : AnySet → ℤ → Prop
  | charset _ data, c => c ∈ data
  | charmap table, c => cell table c = some true
  | bitmap table, c => cell table c = some true

/-- What a range-based loop over the set goes through. -/
def elements : AnySet → List ℤ
  | charset _ data => data
  | charmap table => table.map fun b => if b then 1 else 0
  | bitmap table => table.map fun b => if b then 1 else 0

def hasStringView : AnySet → Bool
  | charset _ _ => true
  | charmap _ => true
  | bitmap _ => false

end AnySet

/-! ## Constructors -/

/-- The values of a counter from `first` until it is `stop`. -/
def steps (first stop : ℤ) : List ℤ :=
  (List.range (stop - first).toNat).map fun i : ℕ => first + i

def zeros (n : ℕ) : List ℤ := List.replicate n 0

/-- `charset(T... chars)`; the array may be larger. -/
def charset (T : CharType) (size : ℕ) (chars : List ℤ) : Option AnySet :=
  if size ≤ 256 ∧ chars.length ≤ size then
    (writeAll (zeros size) 0 (chars.map T.cast)).map (.charset T)
  else none

def charsetRange (T : CharType) (first last : ℤ) : Option AnySet :=
  if first ≤ last ∧ last - first + 1 ≤ 256 then
    (writeAll (zeros (last - first + 1).toNat) 0 (steps first last ++ [last])).map (.charset T)
  else none

/-- `charset(value_type const (&str)[N + 1])`, for the characters before the null terminator -/
def charsetString (T : CharType) (str : List ℤ) : Option AnySet :=
  if str.length ≤ 256 then some (.charset T str) else none

/-- `charset(set1, set2, c_sets...)` -/
def charsetMerge (T : CharType) (sets : List (List ℤ)) : Option AnySet :=
  if 2 ≤ sets.length ∧ sets.flatten.length ≤ 256 then
    (writeAll (zeros sets.flatten.length) 0 sets.flatten).map (.charset T)
  else none

/-- `charmap(T... data)`, which puts the characters into an array of `char` -/
def charmap (n : ℕ) (chars : List ℤ) : Option AnySet :=
  if n ≤ 256 ∧ chars.length ≤ n ∧ ∀ c ∈ chars, char.Has c then
    (setAll chars (noCells n)).map .charmap
  else none

/-- `charmap_range`, with a counter of the type `T`, which `last + 1` has to be a value of -/
def charmapRange (T : CharType) (first last : ℤ) : Option AnySet :=
  if -1 ≤ last ∧ last + 1 ≤ 256 ∧ first ≤ last + 1 ∧ T.Has (last + 1) then
    (setAll (steps first (last + 1)) (noCells (last + 1).toNat)).map .charmap
  else none

/-- `charmap(set1, set2, c_sets...)` for maps -/
def charmapMerge (n : ℕ) (sets : List Table) : Option AnySet :=
  if n ≤ 256 ∧ 2 ≤ sets.length ∧ ∀ set ∈ sets, set.length ≤ n then
    some (.charmap (sets.foldl orInto (noCells n)))
  else none

/-- `charmap(c_sets...)` for sets of characters -/
def charmapOf (n : ℕ) (sets : List (List ℤ)) : Option AnySet :=
  if n ≤ 256 ∧ ∀ set ∈ sets, set.length ≤ n then
    (setAll sets.flatten (noCells n)).map .charmap
  else none

/-- `charmap(set1, c_set...)`, which merges the map with the one of the others -/
def charmapWith (n : ℕ) (set : Table) (others : Option AnySet) : Option AnySet := do
  match ← others with
  | .charmap table => charmapMerge n [set, table]
  | _ => none

/-- `bitmap(chars...)` -/
def bitmap (n : ℕ) (chars : List ℤ) : Option AnySet := (setAll chars (noCells n)).map .bitmap

def bitmapRange (first last : ℤ) (size : ℕ) : Option AnySet :=
  if first ≤ last + 1 then (setAll (steps first (last + 1)) (noCells size)).map .bitmap else none

/-- `bitmap(set1, sets...)` for bitmaps, which all need the same size -/
def bitmapMerge (n : ℕ) (set : Table) (sets : List Table) : Option AnySet :=
  if ∀ s ∈ set :: sets, s.length = n then some (.bitmap (sets.foldl orInto set)) else none

/-- `bitmap(inp_bitmap, chars...)` -/
def bitmapWith (n : ℕ) (set : Table) (chars : List ℤ) : Option AnySet :=
  if set.length = n then (setAll chars set).map .bitmap else none

/-- `bitmap(sets...)` for sets with a `string_view` -/
def bitmapOf (n : ℕ) (sets : List AnySet) : Option AnySet :=
  if ∀ set ∈ sets, set.hasStringView then
    (setAll (sets.flatMap AnySet.elements) (noCells n)).map .bitmap
  else none

/-! ## `except` -/

/-- `(sets.contains(character) && ...)` -/
def allContain (l : Limits) (c : ℤ) : List AnySet → Option Bool
  | [] => some true
  | set :: sets => do if ← set.contains l c then allContain l c sets else some false

/-- `charset::except`, with a result of the size that is left -/
def charsetExcept (data : List ℤ) (sets : List (List ℤ)) : Option (List ℤ) :=
  if sets.flatten.length ≤ data.length then
    writeAll (zeros (data.length - sets.flatten.length)) 0
      (data.filter fun c => !sets.all (·.contains c))
  else none

/-- `charmap::except`, whose loop goes through the values of the map -/
def charmapExcept (table : Table) (sets : List AnySet) : Option Table :=
  setUnless (fun c => allContain boolLimits c sets) (AnySet.charmap table).elements
    (noCells table.length)

/-- `bitmap::except`, whose loop goes through the positions of the bits -/
def bitmapExcept (table : Table) (sets : List AnySet) : Option Table :=
  setUnless (fun c => allContain sizeLimits c sets) (steps 0 table.length) (noCells table.length)

/-! ## The cells of a table -/

section Cells

variable {t t' : Table} {c d : ℤ}

theorem bounds_of_cell {b : Bool} (h : cell t c = some b) : 0 ≤ c ∧ c < t.length := by
  rw [cell] at h
  split at h
  · have hlt : c.toNat < t.length := (List.getElem?_eq_some_iff.1 h).1
    omega
  · cases h

theorem exists_cell (h₀ : 0 ≤ c) (h : c < t.length) : ∃ b, cell t c = some b := by
  have hlt : c.toNat < t.length := by omega
  exact ⟨_, by rw [cell, if_pos h₀, List.getElem?_eq_getElem hlt]⟩

theorem cell_noCells (n : ℕ) (c : ℤ) : cell (noCells n) c ≠ some true := by
  intro h
  rw [cell] at h
  split at h
  · rw [noCells, List.getElem?_replicate] at h
    split at h
    · cases h
    · cases h
  · cases h

theorem setCell_eq_some (h : setCell t c = some t') :
    (0 ≤ c ∧ c < t.length) ∧ t'.length = t.length ∧
      ∀ d, cell t' d = some true ↔ cell t d = some true ∨ d = c := by
  rw [setCell] at h
  split at h
  · rename_i hc
    cases h
    refine ⟨hc, List.length_set, fun d => ?_⟩
    rw [cell, cell]
    split
    · rw [List.getElem?_set]
      by_cases hd : c.toNat = d.toNat
      · have hdc : d = c := by omega
        have hlt : c.toNat < t.length := by omega
        simp [hdc, hlt]
      · have hdc : d ≠ c := by
          rintro rfl
          exact hd rfl
        simp [hd, hdc]
    · have hdc : d ≠ c := by omega
      simp [hdc]
  · cases h

theorem exists_setCell (h : 0 ≤ c ∧ c < t.length) : ∃ t', setCell t c = some t' :=
  ⟨_, if_pos h⟩

end Cells

section SetUnless

variable {skip : ℤ → Option Bool} {chars : List ℤ} {t t' : Table}

theorem setUnless_eq_some (h : setUnless skip chars t = some t') :
    t'.length = t.length ∧
      ∀ d, cell t' d = some true ↔
        cell t d = some true ∨ d ∈ chars ∧ skip d = some false := by
  induction chars generalizing t with
  | nil =>
      cases h
      exact ⟨rfl, fun d => by simp⟩
  | cons c chars ih =>
      obtain ⟨b, hb, h⟩ := Option.bind_eq_some_iff.1 h
      cases b with
      | true =>
          obtain ⟨hlength, hcell⟩ := ih h
          refine ⟨hlength, fun d => ?_⟩
          rw [hcell, List.mem_cons]
          refine or_congr_right ⟨fun hd => ⟨.inr hd.1, hd.2⟩, ?_⟩
          rintro ⟨rfl | hd, hskip⟩
          · rw [hb] at hskip
            cases hskip
          · exact ⟨hd, hskip⟩
      | false =>
          obtain ⟨t₁, hset, h⟩ := Option.bind_eq_some_iff.1 h
          obtain ⟨-, hlength₁, hcell₁⟩ := setCell_eq_some hset
          obtain ⟨hlength, hcell⟩ := ih h
          refine ⟨hlength.trans hlength₁, fun d => ?_⟩
          rw [hcell, hcell₁, List.mem_cons, or_assoc]
          refine or_congr_right ⟨?_, ?_⟩
          · rintro (rfl | hd)
            · exact ⟨.inl rfl, hb⟩
            · exact ⟨.inr hd.1, hd.2⟩
          · rintro ⟨rfl | hd, hskip⟩
            · exact .inl rfl
            · exact .inr ⟨hd, hskip⟩

theorem exists_setUnless_iff : (∃ t', setUnless skip chars t = some t') ↔
    ∀ c ∈ chars, ∃ b, skip c = some b ∧ (b = false → 0 ≤ c ∧ c < t.length) := by
  induction chars generalizing t with
  | nil => simp [setUnless]
  | cons c chars ih =>
      rw [List.forall_mem_cons]
      constructor
      · rintro ⟨t', h⟩
        obtain ⟨b, hb, h⟩ := Option.bind_eq_some_iff.1 h
        cases b with
        | true => exact ⟨⟨true, hb, fun hfalse => by cases hfalse⟩, ih.1 ⟨t', h⟩⟩
        | false =>
            obtain ⟨t₁, hset, h⟩ := Option.bind_eq_some_iff.1 h
            obtain ⟨hbounds, hlength, -⟩ := setCell_eq_some hset
            have hrest := ih.1 ⟨t', h⟩
            rw [hlength] at hrest
            exact ⟨⟨false, hb, fun _ => hbounds⟩, hrest⟩
      · rintro ⟨⟨b, hb, hbounds⟩, hrest⟩
        cases b with
        | true =>
            obtain ⟨t', h⟩ := ih.2 hrest
            exact ⟨t', Option.bind_eq_some_iff.2 ⟨true, hb, h⟩⟩
        | false =>
            obtain ⟨t₁, hset⟩ := exists_setCell (hbounds rfl)
            obtain ⟨-, hlength, -⟩ := setCell_eq_some hset
            obtain ⟨t', h⟩ := ih (t := t₁).2 (by rwa [hlength])
            refine ⟨t', Option.bind_eq_some_iff.2 ⟨false, hb, ?_⟩⟩
            exact Option.bind_eq_some_iff.2 ⟨t₁, hset, h⟩

theorem setAll_eq_some (h : setAll chars t = some t') : t'.length = t.length ∧
    ∀ d, cell t' d = some true ↔ cell t d = some true ∨ d ∈ chars := by
  obtain ⟨hlength, hcell⟩ := setUnless_eq_some h
  exact ⟨hlength, fun d => by rw [hcell]; simp⟩

end SetUnless

/-! ## Merged tables -/

section Merge

variable {out set : Table}

theorem length_orInto (out set : Table) : (orInto out set).length = out.length := by
  induction out generalizing set with
  | nil => rfl
  | cons b out ih =>
      cases set with
      | nil => rfl
      | cons b' set => rw [orInto, List.length_cons, List.length_cons, ih]

theorem getElem?_orInto (h : set.length ≤ out.length) (i : ℕ) :
    (orInto out set)[i]? = some true ↔ out[i]? = some true ∨ set[i]? = some true := by
  induction out generalizing set i with
  | nil =>
      cases set with
      | nil => simp [orInto]
      | cons b' set => simp at h
  | cons b out ih =>
      cases set with
      | nil => simp [orInto]
      | cons b' set =>
          cases i with
          | zero => simp [orInto]
          | succ i =>
              rw [orInto, List.getElem?_cons_succ, List.getElem?_cons_succ,
                List.getElem?_cons_succ]
              exact ih (by simpa using h) i

theorem cell_orInto (h : set.length ≤ out.length) (c : ℤ) :
    cell (orInto out set) c = some true ↔ cell out c = some true ∨ cell set c = some true := by
  rw [cell, cell, cell]
  split
  · exact getElem?_orInto h _
  · simp

theorem foldl_orInto {sets : List Table} (h : ∀ set ∈ sets, set.length ≤ out.length) :
    (sets.foldl orInto out).length = out.length ∧
      ∀ c, cell (sets.foldl orInto out) c = some true ↔
        cell out c = some true ∨ ∃ set ∈ sets, cell set c = some true := by
  induction sets generalizing out with
  | nil => exact ⟨rfl, fun c => by simp⟩
  | cons set sets ih =>
      rw [List.forall_mem_cons] at h
      have hsizes : ∀ s ∈ sets, s.length ≤ (orInto out set).length := by
        rw [length_orInto]
        exact h.2
      obtain ⟨hlength, hcell⟩ := ih hsizes
      refine ⟨hlength.trans (length_orInto out set), fun c => ?_⟩
      rw [List.foldl_cons, hcell, cell_orInto h.1, or_assoc, List.exists_mem_cons_iff]

end Merge

/-! ## `contains` -/

section Contains

variable {l : Limits} {S : CharType} {set : AnySet} {t : Table} {c : ℤ} {b : Bool}

/-- The size of a table, which is the first character that has no cell. -/
def AnySet.tableSize : AnySet → Option ℕ
  | charset _ _ => none
  | charmap table => some table.length
  | bitmap table => some table.length

/-- A value of the type of the argument -/
structure Limits.Has (l : Limits) (c : ℤ) : Prop where
  le_max : c ≤ l.max
  signed : c < 0 → l.signed = true

theorem limits_has (h : S.Has c) : (limits S).Has c where
  le_max := Int.le_sub_one_of_lt h.2
  signed hneg := by
    by_contra hunsigned
    change ¬ S.signed = true at hunsigned
    have hlow := h.1
    rw [CharType.lowest, if_neg hunsigned] at hlow
    omega

theorem tableContains_eq_some (h : l.Has c) : tableContains l t c = some b ↔
    c ≠ t.length ∧ (b = true ↔ cell t c = some true) := by
  rw [tableContains]
  by_cases hoff : (l.signed ∨ (t.length : ℤ) < l.max) ∧ (c < 0 ∨ (t.length : ℤ) < c)
  · have hcell : cell t c ≠ some true := by
      intro hc
      have hbounds := bounds_of_cell hc
      omega
    have hc : c ≠ t.length := by omega
    rw [if_pos hoff]
    cases b <;> simp [hcell, hc]
  · rw [if_neg hoff]
    have hbounds : 0 ≤ c ∧ c ≤ t.length := by
      refine ⟨?_, ?_⟩
      · by_contra hneg
        exact hoff ⟨.inl (h.signed (not_le.1 hneg)), .inl (not_le.1 hneg)⟩
      · by_contra hlt
        have hmax := h.le_max
        exact hoff ⟨.inr (by omega), .inr (not_le.1 hlt)⟩
    by_cases hc : c = t.length
    · have hcell : cell t c = none := by
        rw [cell, if_pos hbounds.1, List.getElem?_eq_none_iff]
        omega
      rw [hcell]
      exact iff_of_false (by simp) fun hne => hne.1 hc
    · have hlt : c < t.length := by omega
      obtain ⟨b', hb'⟩ := exists_cell hbounds.1 hlt
      rw [hb']
      cases b <;> cases b' <;> simp [hc]

theorem contains_eq_some (h : l.Has c) : set.contains l c = some b ↔
    (∀ n, set.tableSize = some n → c ≠ n) ∧ (b = true ↔ set.Has (set.received c)) := by
  have htable : ∀ t : Table, (tableContains l t c = some b ↔
      (∀ n : ℕ, some t.length = some n → c ≠ n) ∧ (b = true ↔ cell t c = some true)) := by
    intro t
    rw [tableContains_eq_some h]
    refine and_congr_left' ⟨fun hc n hn => ?_, fun hn => hn _ rfl⟩
    cases hn
    exact hc
  cases set with
  | charset T data =>
      simp only [AnySet.contains, AnySet.tableSize, AnySet.Has, AnySet.received]
      cases b <;> simp
  | charmap table => exact htable table
  | bitmap table => exact htable table

/-- `contains` answers, and says whether the character is one of these. -/
def ContainsRight (set : AnySet) (S : CharType) (c : ℤ) (Given : ℤ → Prop) : Prop :=
  ∃ b, set.contains (limits S) c = some b ∧ (b = true ↔ Given (set.received c))

theorem containsRight_iff {Given : ℤ → Prop} (h : S.Has c) : ContainsRight set S c Given ↔
    (∀ n, set.tableSize = some n → c ≠ n) ∧
      (set.Has (set.received c) ↔ Given (set.received c)) := by
  constructor
  · rintro ⟨b, hb, hgiven⟩
    obtain ⟨hsize, hhas⟩ := (contains_eq_some (limits_has h)).1 hb
    exact ⟨hsize, hhas.symm.trans hgiven⟩
  · rintro ⟨hsize, hgiven⟩
    by_cases hhas : set.Has (set.received c)
    · exact ⟨true, (contains_eq_some (limits_has h)).2 ⟨hsize, iff_of_true rfl hhas⟩,
        iff_of_true rfl (hgiven.1 hhas)⟩
    · exact ⟨false, (contains_eq_some (limits_has h)).2 ⟨hsize, iff_of_false Bool.false_ne_true hhas⟩,
        iff_of_false Bool.false_ne_true fun hg => hhas (hgiven.2 hg)⟩

/-- The sets are asked for the character up to the first one that does not have it. None of them
is a table of this size. -/
def Answer (c : ℤ) : List AnySet → Prop
  | [] => True
  | set :: sets =>
      (∀ n, set.tableSize = some n → c ≠ n) ∧ (set.Has (set.received c) → Answer c sets)

theorem allContain_eq_some (h : l.Has c) (sets : List AnySet) : allContain l c sets = some b ↔
    Answer c sets ∧ (b = true ↔ ∀ set ∈ sets, set.Has (set.received c)) := by
  induction sets with
  | nil => cases b <;> simp [allContain, Answer]
  | cons set sets ih =>
      rw [Answer, List.forall_mem_cons]
      constructor
      · intro hall
        obtain ⟨b', hb', hall⟩ := Option.bind_eq_some_iff.1 hall
        obtain ⟨hsize, hhas⟩ := (contains_eq_some h).1 hb'
        cases b' with
        | true =>
            obtain ⟨hanswer, hb⟩ := ih.1 hall
            exact ⟨⟨hsize, fun _ => hanswer⟩, hb.trans (and_iff_right (hhas.1 rfl)).symm⟩
        | false =>
            have hnot : ¬ set.Has (set.received c) := fun hset => Bool.false_ne_true (hhas.2 hset)
            cases hall
            exact ⟨⟨hsize, fun hset => absurd hset hnot⟩,
              iff_of_false Bool.false_ne_true fun hsets => hnot hsets.1⟩
      · rintro ⟨⟨hsize, hanswer⟩, hb⟩
        by_cases hset : set.Has (set.received c)
        · refine Option.bind_eq_some_iff.2 ⟨true, ?_, ?_⟩
          · exact (contains_eq_some h).2 ⟨hsize, iff_of_true rfl hset⟩
          · exact ih.2 ⟨hanswer hset, hb.trans (and_iff_right hset)⟩
        · refine Option.bind_eq_some_iff.2 ⟨false, ?_, ?_⟩
          · exact (contains_eq_some h).2 ⟨hsize, iff_of_false Bool.false_ne_true hset⟩
          · have hfalse : b = false := by
              rw [← Bool.not_eq_true, hb]
              exact fun hsets => hset hsets.1
            rw [hfalse]
            rfl

theorem exists_allContain_iff (h : l.Has c) {sets : List AnySet} :
    (∃ b, allContain l c sets = some b) ↔ Answer c sets := by
  simp only [allContain_eq_some h]
  refine ⟨fun hb => hb.elim fun _ hb => hb.1, fun hanswer => ?_⟩
  by_cases hall : ∀ set ∈ sets, set.Has (set.received c)
  · exact ⟨true, hanswer, iff_of_true rfl hall⟩
  · exact ⟨false, hanswer, iff_of_false Bool.false_ne_true hall⟩

end Contains

/-! ## What the constructors build -/

theorem mem_steps {first stop c : ℤ} : c ∈ steps first stop ↔ first ≤ c ∧ c < stop := by
  rw [steps, List.mem_map]
  constructor
  · rintro ⟨i, hi, rfl⟩
    rw [List.mem_range] at hi
    omega
  · intro h
    exact ⟨(c - first).toNat, List.mem_range.2 (by omega), by omega⟩

theorem length_steps (first stop : ℤ) : (steps first stop).length = (stop - first).toNat := by
  rw [steps, List.length_map, List.length_range]

theorem writeAll_zeros {n : ℕ} {units data : List ℤ} :
    writeAll (zeros n) 0 units = some data ↔
      units.length ≤ n ∧ data = units ++ zeros (n - units.length) := InPlace.writeAll_replicate

theorem writeAll_zeros_length (units : List ℤ) :
    writeAll (zeros units.length) 0 units = some units :=
  writeAll_zeros.2 ⟨le_rfl, by simp [zeros]⟩

/-- A call of a constructor -/
inductive Call
  | charset (T : CharType) (size : ℕ) (chars : List ℤ)
  | charsetRange (T : CharType) (first last : ℤ)
  | charsetString (T : CharType) (str : List ℤ)
  | charsetMerge (T : CharType) (sets : List (List ℤ))
  | charmap (n : ℕ) (chars : List ℤ)
  | charmapRange (T : CharType) (first last : ℤ)
  | charmapMerge (n : ℕ) (sets : List Table)
  | charmapOf (n : ℕ) (sets : List (List ℤ))
  | charmapWith (n : ℕ) (set : Table) (chars : List ℤ)
  | charmapWithOf (n : ℕ) (set : Table) (sets : List (List ℤ))
  | bitmap (n : ℕ) (chars : List ℤ)
  | bitmapRange (first last : ℤ) (size : ℕ)
  | bitmapMerge (n : ℕ) (set : Table) (sets : List Table)
  | bitmapWith (n : ℕ) (set : Table) (chars : List ℤ)
  | bitmapOf (n : ℕ) (sets : List AnySet)

namespace Call

/-- The set that the call builds, where it compiles. -/
def build : Call → Option AnySet
  | charset T size chars => Charsets.charset T size chars
  | charsetRange T first last => Charsets.charsetRange T first last
  | charsetString T str => Charsets.charsetString T str
  | charsetMerge T sets => Charsets.charsetMerge T sets
  | charmap n chars => Charsets.charmap n chars
  | charmapRange T first last => Charsets.charmapRange T first last
  | charmapMerge n sets => Charsets.charmapMerge n sets
  | charmapOf n sets => Charsets.charmapOf n sets
  | charmapWith n set chars => Charsets.charmapWith n set (Charsets.charmap n chars)
  | charmapWithOf n set sets => Charsets.charmapWith n set (Charsets.charmapOf n sets)
  | bitmap n chars => Charsets.bitmap n chars
  | bitmapRange first last size => Charsets.bitmapRange first last size
  | bitmapMerge n set sets => Charsets.bitmapMerge n set sets
  | bitmapWith n set chars => Charsets.bitmapWith n set chars
  | bitmapOf n sets => Charsets.bitmapOf n sets

/-- The character is one of the given characters, or of the given sets. -/
def Given : Call → ℤ → Prop
  | charset T _ chars, c => c ∈ chars.map T.cast
  | charsetRange _ first last, c => first ≤ c ∧ c ≤ last
  | charsetString _ str, c => c ∈ str
  | charsetMerge _ sets, c => ∃ set ∈ sets, c ∈ set
  | charmap _ chars, c => c ∈ chars
  | charmapRange _ first last, c => first ≤ c ∧ c ≤ last
  | charmapMerge _ sets, c => ∃ set ∈ sets, cell set c = some true
  | charmapOf _ sets, c => ∃ set ∈ sets, c ∈ set
  | charmapWith _ set chars, c => cell set c = some true ∨ c ∈ chars
  | charmapWithOf _ set sets, c => cell set c = some true ∨ ∃ s ∈ sets, c ∈ s
  | bitmap _ chars, c => c ∈ chars
  | bitmapRange first last _, c => first ≤ c ∧ c ≤ last
  | bitmapMerge _ set sets, c => cell set c = some true ∨ ∃ s ∈ sets, cell s c = some true
  | bitmapWith _ set chars, c => cell set c = some true ∨ c ∈ chars
  | bitmapOf _ sets, c => ∃ set ∈ sets, set.Has c

/-- What the built set has instead: a `charset` also the zeros behind the characters, and a bitmap
the values of a map and not its characters. -/
def Built : Call → ℤ → Prop
  | charset T size chars, c => c ∈ chars.map T.cast ∨ chars.length < size ∧ c = 0
  | bitmapOf _ sets, c => ∃ set ∈ sets, c ∈ set.elements
  | call, c => call.Given c

/-- The size of the table. -/
def tableSize : Call → Option ℕ
  | charset _ _ _ | charsetRange _ _ _ | charsetString _ _ | charsetMerge _ _ => none
  | charmapRange _ _ last => some (last + 1).toNat
  | bitmapRange _ _ size => some size
  | charmap n _ | charmapMerge n _ | charmapOf n _ | charmapWith n _ _ | charmapWithOf n _ _ =>
      some n
  | bitmap n _ | bitmapMerge n _ _ | bitmapWith n _ _ | bitmapOf n _ => some n

end Call

/-- What is known of a set that has been built. -/
structure Contents (set : AnySet) (size : Option ℕ) (Built : ℤ → Prop) : Prop where
  size : set.tableSize = size
  has : ∀ c, set.Has c ↔ Built c

section Build

variable {n : ℕ} {chars : List ℤ} {set : AnySet} {t t' : Table}

theorem Contents.congr {size : Option ℕ} {P Q : ℤ → Prop} (h : Contents set size P)
    (hPQ : ∀ c, P c ↔ Q c) : Contents set size Q :=
  ⟨h.size, fun c => (h.has c).trans (hPQ c)⟩

theorem setAll_noCells (h : setAll chars (noCells n) = some t') :
    t'.length = n ∧ ∀ c, cell t' c = some true ↔ c ∈ chars := by
  obtain ⟨hlength, hcell⟩ := setAll_eq_some h
  refine ⟨hlength.trans List.length_replicate, fun c => ?_⟩
  rw [hcell, or_iff_right (cell_noCells n c)]

theorem contents_charmap (h : (setAll chars (noCells n)).map .charmap = some set) :
    Contents set (some n) (· ∈ chars) := by
  obtain ⟨t', ht, rfl⟩ := Option.map_eq_some_iff.1 h
  obtain ⟨hlength, hcell⟩ := setAll_noCells ht
  exact ⟨congrArg some hlength, hcell⟩

theorem contents_bitmap (h : (setAll chars (noCells n)).map .bitmap = some set) :
    Contents set (some n) (· ∈ chars) := by
  obtain ⟨t', ht, rfl⟩ := Option.map_eq_some_iff.1 h
  obtain ⟨hlength, hcell⟩ := setAll_noCells ht
  exact ⟨congrArg some hlength, hcell⟩

theorem contents_charmapMerge {sets : List Table} (h : charmapMerge n sets = some set) :
    Contents set (some n) fun c => ∃ s ∈ sets, cell s c = some true := by
  rw [charmapMerge] at h
  split at h
  · rename_i hsizes
    cases h
    have hle : ∀ s ∈ sets, s.length ≤ (noCells n).length := by
      rw [noCells, List.length_replicate]
      exact hsizes.2.2
    obtain ⟨hlength, hcell⟩ := foldl_orInto hle
    refine ⟨congrArg some (hlength.trans List.length_replicate), fun c => ?_⟩
    exact (hcell c).trans (or_iff_right (cell_noCells n c))
  · cases h

theorem contents_charmapWith {others : Option AnySet} {P : ℤ → Prop}
    (hothers : ∀ s, others = some s → Contents s (some n) P)
    (h : charmapWith n t others = some set) :
    Contents set (some n) fun c => cell t c = some true ∨ P c := by
  obtain ⟨s, hs, h⟩ := Option.bind_eq_some_iff.1 h
  have hP := hothers s hs
  cases s with
  | charset T data => cases h
  | bitmap table => cases h
  | charmap table =>
      refine (contents_charmapMerge h).congr fun c => ?_
      rw [← hP.has c]
      simp [AnySet.Has]

theorem contents_charmap_chars (h : charmap n chars = some set) :
    Contents set (some n) (· ∈ chars) := by
  rw [charmap] at h
  split at h
  · exact contents_charmap h
  · cases h

theorem contents_charmapOf (h : charmapOf n sets = some set) :
    Contents set (some n) fun c => ∃ s ∈ sets, c ∈ s := by
  rw [charmapOf] at h
  split at h
  · exact (contents_charmap h).congr fun c => List.mem_flatten
  · cases h

theorem contents_charset {size : ℕ} (h : charset T size chars = some set) :
    Contents set none fun c => c ∈ chars.map T.cast ∨ chars.length < size ∧ c = 0 := by
  rw [charset] at h
  split at h
  · obtain ⟨data, hdata, rfl⟩ := Option.map_eq_some_iff.1 h
    obtain ⟨hle, rfl⟩ := writeAll_zeros.1 hdata
    rw [List.length_map] at hle
    refine ⟨rfl, fun c => ?_⟩
    rw [AnySet.Has, List.mem_append, zeros, List.mem_replicate, List.length_map]
    refine or_congr_right (and_congr_left' ?_)
    omega
  · cases h

theorem contents_charsetRange (h : charsetRange T first last = some set) :
    Contents set none fun c => first ≤ c ∧ c ≤ last := by
  rw [charsetRange] at h
  split at h
  · rename_i hsize
    have hlength : (last - first + 1).toNat = (steps first last ++ [last]).length := by
      rw [List.length_append, length_steps, List.length_singleton]
      omega
    rw [hlength, writeAll_zeros_length] at h
    cases h
    refine ⟨rfl, fun c => ?_⟩
    rw [AnySet.Has, List.mem_append, mem_steps, List.mem_singleton]
    omega
  · cases h

theorem contents_charsetMerge (h : charsetMerge T sets = some set) :
    Contents set none fun c => ∃ s ∈ sets, c ∈ s := by
  rw [charsetMerge] at h
  split at h
  · rw [writeAll_zeros_length] at h
    cases h
    exact ⟨rfl, fun c => List.mem_flatten⟩
  · cases h

theorem contents_charmapRange (h : charmapRange T first last = some set) :
    Contents set (some (last + 1).toNat) fun c => first ≤ c ∧ c ≤ last := by
  rw [charmapRange] at h
  split at h
  · refine (contents_charmap h).congr fun c => ?_
    rw [mem_steps]
    omega
  · cases h

theorem contents_bitmapRange (h : bitmapRange first last n = some set) :
    Contents set (some n) fun c => first ≤ c ∧ c ≤ last := by
  rw [bitmapRange] at h
  split at h
  · refine (contents_bitmap h).congr fun c => ?_
    rw [mem_steps]
    omega
  · cases h

theorem contents_bitmapMerge {sets : List Table} (h : bitmapMerge n t sets = some set) :
    Contents set (some n) fun c => cell t c = some true ∨ ∃ s ∈ sets, cell s c = some true := by
  rw [bitmapMerge] at h
  split at h
  · rename_i hsizes
    cases h
    rw [List.forall_mem_cons] at hsizes
    have hle : ∀ s ∈ sets, s.length ≤ t.length := by
      intro s hs
      rw [hsizes.1, hsizes.2 s hs]
    obtain ⟨hlength, hcell⟩ := foldl_orInto hle
    exact ⟨congrArg some (hlength.trans hsizes.1), hcell⟩
  · cases h

theorem contents_bitmapWith (h : bitmapWith n t chars = some set) :
    Contents set (some n) fun c => cell t c = some true ∨ c ∈ chars := by
  rw [bitmapWith] at h
  split at h
  · rename_i hsize
    obtain ⟨t', ht, rfl⟩ := Option.map_eq_some_iff.1 h
    obtain ⟨hlength, hcell⟩ := setAll_eq_some ht
    exact ⟨congrArg some (hlength.trans hsize), hcell⟩
  · cases h

theorem contents_bitmapOf {sets : List AnySet} (h : bitmapOf n sets = some set) :
    Contents set (some n) fun c => ∃ s ∈ sets, c ∈ s.elements := by
  rw [bitmapOf] at h
  split at h
  · exact (contents_bitmap h).congr fun c => List.mem_flatMap
  · cases h

theorem contents_build {call : Call} (h : call.build = some set) :
    Contents set call.tableSize call.Built := by
  cases call with
  | charset T size chars => exact contents_charset h
  | charsetRange T first last => exact contents_charsetRange h
  | charsetString T str =>
      rw [Call.build, charsetString] at h
      split at h
      · cases h
        exact ⟨rfl, fun c => Iff.rfl⟩
      · cases h
  | charsetMerge T sets => exact contents_charsetMerge h
  | charmap n chars => exact contents_charmap_chars h
  | charmapRange T first last => exact contents_charmapRange h
  | charmapMerge n sets => exact contents_charmapMerge h
  | charmapOf n sets => exact contents_charmapOf h
  | charmapWith n set chars =>
      exact contents_charmapWith (fun _ hs => contents_charmap_chars hs) h
  | charmapWithOf n set sets => exact contents_charmapWith (fun _ hs => contents_charmapOf hs) h
  | bitmap n chars => exact contents_bitmap h
  | bitmapRange first last size => exact contents_bitmapRange h
  | bitmapMerge n set sets => exact contents_bitmapMerge h
  | bitmapWith n set chars => exact contents_bitmapWith h
  | bitmapOf n sets => exact contents_bitmapOf h

end Build

/-- The character is no zero of a larger array, and a bitmap gets no value of a map for it. -/
def Call.BuiltAsGiven : Call → ℤ → Prop
  | charset T size chars, c => T.cast c = 0 → chars.length < size → 0 ∈ chars.map T.cast
  | bitmapOf _ sets, c => (∃ set ∈ sets, c ∈ set.elements) ↔ ∃ set ∈ sets, set.Has c
  | _, _ => True

/-- The character is not the size of the table, and the set is as it was given. -/
def Call.HoldsAt (call : Call) (c : ℤ) : Prop :=
  (∀ n, call.tableSize = some n → c ≠ n) ∧ call.BuiltAsGiven c

theorem contains_build_iff {call : Call} {set : AnySet} (h : call.build = some set)
    {c : ℤ} (hc : S.Has c) :
    ContainsRight set S c call.Given ↔ call.HoldsAt c := by
  have hcontents := contents_build h
  rw [containsRight_iff hc, hcontents.size, hcontents.has, Call.HoldsAt]
  refine and_congr_right fun _ => ?_
  cases call with
  | charset T size chars =>
      have hreceived : set.received c = T.cast c := by
        rw [Call.build, charset] at h
        split at h
        · obtain ⟨data, -, rfl⟩ := Option.map_eq_some_iff.1 h
          rfl
        · cases h
      rw [hreceived, Call.BuiltAsGiven]
      constructor
      · intro hbuilt hzero hlt
        rw [← hzero]
        exact hbuilt.1 (.inr ⟨hlt, hzero⟩)
      · refine fun hzero => ⟨?_, .inl⟩
        rintro (hmem | ⟨hlt, hcast⟩)
        · exact hmem
        · rw [Call.Given, hcast]
          exact hzero hcast hlt
  | bitmapOf n sets =>
      have hreceived : set.received c = c := by
        rw [Call.build, bitmapOf] at h
        split at h
        · obtain ⟨data, -, rfl⟩ := Option.map_eq_some_iff.1 h
          rfl
        · cases h
      rw [hreceived]
      rfl
  | _ => exact iff_of_true Iff.rfl trivial

/-! ## What `except` leaves -/

section Except

variable {S : CharType} {c : ℤ}

/-- How many characters of the set are in all of the other sets. -/
def commonCount (data : List ℤ) (sets : List (List ℤ)) : ℕ :=
  data.countP fun c => sets.all (·.contains c)

theorem charsetExcept_eq_some {data result : List ℤ} :
    charsetExcept data sets = some result ↔
      sets.flatten.length ≤ commonCount data sets ∧
        result = (data.filter fun c => !sets.all (·.contains c)) ++
          zeros (commonCount data sets - sets.flatten.length) := by
  have hkept : (data.filter fun c => !sets.all (·.contains c)).length +
      commonCount data sets = data.length := by
    rw [commonCount, List.countP_eq_length_filter, Nat.add_comm]
    exact (List.length_eq_length_filter_add _).symm
  rw [charsetExcept]
  split
  · rw [writeAll_zeros]
    refine and_congr (by omega) ?_
    have hrest : data.length - sets.flatten.length -
        (data.filter fun c => !sets.all (·.contains c)).length =
          commonCount data sets - sets.flatten.length := by omega
    rw [hrest]
  · refine iff_of_false (by simp) ?_
    rintro ⟨hle, -⟩
    omega

theorem not_all_iff (hne : sets ≠ []) (hdisjoint : sets.Pairwise List.Disjoint)
    (hle : sets.flatten.length ≤ commonCount data sets) {d : ℤ} :
    (!sets.all (·.contains d)) = true ↔ ∀ set ∈ sets, d ∉ set := by
  rcases sets with _ | ⟨first, _ | ⟨second, sets⟩⟩
  · exact absurd rfl hne
  · simp
  · have hcommon : commonCount data (first :: second :: sets) = 0 := by
      rw [commonCount, List.countP_eq_zero]
      intro e _ hall
      simp only [List.all_cons, Bool.and_eq_true, List.contains_iff_mem] at hall
      exact (List.pairwise_cons.1 hdisjoint).1 second List.mem_cons_self hall.1 hall.2.1
    have hempty : (first :: second :: sets).flatten = [] := by
      rw [← List.length_eq_zero_iff]
      omega
    rw [List.flatten_eq_nil_iff] at hempty
    refine iff_of_true ?_ fun set hset => ?_
    · simp [hempty first List.mem_cons_self]
    · rw [hempty set hset]
      exact List.not_mem_nil

theorem charsetExcept_right_iff
    (hne : sets ≠ []) (hdisjoint : sets.Pairwise List.Disjoint) (hc : S.Has c) :
    (∃ result, charsetExcept data sets = some result ∧
      ContainsRight (.charset T result) S c fun d => d ∈ data ∧ ∀ set ∈ sets, d ∉ set) ↔
    sets.flatten.length ≤ commonCount data sets ∧
      (T.cast c = 0 → sets.flatten.length < commonCount data sets →
        0 ∈ data ∧ ∀ set ∈ sets, (0 : ℤ) ∉ set) := by
  have hhas : ∀ n : ℕ, sets.flatten.length ≤ commonCount data sets → ∀ d : ℤ,
      (d ∈ (data.filter fun c => !sets.all (·.contains c)) ++ zeros n ↔
        (d ∈ data ∧ ∀ set ∈ sets, d ∉ set) ∨ 0 < n ∧ d = 0) := by
    intro n hle d
    rw [List.mem_append, List.mem_filter, not_all_iff hne hdisjoint hle, zeros,
      List.mem_replicate, Nat.pos_iff_ne_zero]
  constructor
  · rintro ⟨result, hresult, hright⟩
    obtain ⟨hle, rfl⟩ := charsetExcept_eq_some.1 hresult
    refine ⟨hle, fun hzero hlt => ?_⟩
    obtain ⟨-, hmem⟩ := (containsRight_iff hc).1 hright
    rw [AnySet.received, hzero] at hmem
    exact hmem.1 ((hhas _ hle 0).2 (.inr ⟨by omega, rfl⟩))
  · rintro ⟨hle, hzero⟩
    refine ⟨_, charsetExcept_eq_some.2 ⟨hle, rfl⟩, (containsRight_iff hc).2 ⟨?_, ?_⟩⟩
    · intro n hn
      cases hn
    · refine (hhas _ hle _).trans ⟨?_, .inl⟩
      rintro (hmem | ⟨hlt, hcast⟩)
      · exact hmem
      · rw [AnySet.received] at hcast ⊢
        rw [hcast]
        exact hzero hcast (by omega)

theorem tableExcept_right_iff {n : ℕ} {l : Limits} {sets : List AnySet} {chars : List ℤ}
    {Given : ℤ → Prop} {mk : Table → AnySet} (hreceived : ∀ t, (mk t).received c = c)
    (hsize : ∀ t, (mk t).tableSize = some t.length)
    (hhas : ∀ t, (mk t).Has c ↔ cell t c = some true)
    (hchars : ∀ d ∈ chars, l.Has d ∧ 0 ≤ d) (hc : S.Has c) :
    (∃ result, setUnless (fun d => allContain l d sets) chars (noCells n) = some result ∧
      ContainsRight (mk result) S c Given) ↔
    (∀ d ∈ chars, Answer d sets ∧ ((∃ set ∈ sets, ¬ set.Has (set.received d)) → d < n)) ∧
      c ≠ n ∧ ((c ∈ chars ∧ ∃ set ∈ sets, ¬ set.Has (set.received c)) ↔ Given c) := by
  have hfalse : ∀ d ∈ chars, (allContain l d sets = some false ↔
      Answer d sets ∧ ∃ set ∈ sets, ¬ set.Has (set.received d)) := by
    intro d hd
    rw [allContain_eq_some (hchars d hd).1]
    simp
  have hexists : (∃ t, setUnless (fun d => allContain l d sets) chars (noCells n) = some t) ↔
      ∀ d ∈ chars, Answer d sets ∧
        ((∃ set ∈ sets, ¬ set.Has (set.received d)) → d < n) := by
    rw [exists_setUnless_iff, noCells, List.length_replicate]
    refine forall₂_congr fun d hd => ?_
    rw [← exists_allContain_iff (hchars d hd).1]
    constructor
    · rintro ⟨b, hb, hbounds⟩
      refine ⟨⟨b, hb⟩, fun hlacks => ?_⟩
      have hanswer := (allContain_eq_some (hchars d hd).1 sets).1 hb
      have hskip := (hfalse d hd).2 ⟨hanswer.1, hlacks⟩
      rw [hb] at hskip
      exact (hbounds (Option.some.inj hskip)).2
    · rintro ⟨⟨b, hb⟩, hbounds⟩
      refine ⟨b, hb, ?_⟩
      rintro rfl
      exact ⟨(hchars d hd).2, hbounds ((hfalse d hd).1 hb).2⟩
  have hright : ∀ t, setUnless (fun d => allContain l d sets) chars (noCells n) = some t →
      (ContainsRight (mk t) S c Given ↔
        c ≠ n ∧ ((c ∈ chars ∧ ∃ set ∈ sets, ¬ set.Has (set.received c)) ↔ Given c)) := by
    intro t ht
    obtain ⟨hlength, hcell⟩ := setUnless_eq_some ht
    have hanswer := hexists.1 ⟨t, ht⟩
    have hmem : (c ∈ chars ∧ allContain l c sets = some false) ↔
        c ∈ chars ∧ ∃ set ∈ sets, ¬ set.Has (set.received c) :=
      and_congr_right fun hcmem =>
        (hfalse c hcmem).trans (and_iff_right (hanswer c hcmem).1)
    rw [containsRight_iff hc, hreceived, hsize, hhas, hcell, or_iff_right (cell_noCells n c),
      hmem, hlength, noCells, List.length_replicate]
    simp
  constructor
  · rintro ⟨t, ht, h⟩
    exact ⟨hexists.1 ⟨t, ht⟩, (hright t ht).1 h⟩
  · rintro ⟨h, h'⟩
    obtain ⟨t, ht⟩ := hexists.2 h
    exact ⟨t, ht, (hright t ht).2 h'⟩

end Except

/-! ## What is asked of the sets -/

/-- What may be asked: a built set for a character, what `except` leaves of a set, and whether
three sets of the same characters agree. -/
inductive Question
  | contains (call : Call) (set : AnySet) (built : call.build = some set) (S : CharType) (c : ℤ)
      (has : S.Has c)
  | charsetExcept (T : CharType) (data : List ℤ) (sets : List (List ℤ)) (nonempty : sets ≠ [])
      (subset : ∀ set ∈ sets, set ⊆ data) (disjoint : sets.Pairwise List.Disjoint)
      (S : CharType) (c : ℤ) (has : S.Has c)
  | charmapExcept (table : Table) (sets : List AnySet) (S : CharType) (c : ℤ) (has : S.Has c)
  | bitmapExcept (table : Table) (sets : List AnySet) (size : table.length < 2 ^ 64)
      (S : CharType) (c : ℤ) (has : S.Has c)
  | agree (T : CharType) (data : List ℤ) (map bits : Table)
      (same : ∀ c, (c ∈ data ↔ cell map c = some true) ∧ (c ∈ data ↔ cell bits c = some true))
      (c : ℤ) (has : T.Has c)

namespace Question

/-- The answer is the one that is expected. -/
def Right : Question → Prop
  | contains call set _ S c _ => ContainsRight set S c call.Given
  | charsetExcept T data sets _ _ _ S c _ =>
      ∃ result, Charsets.charsetExcept data sets = some result ∧
        ContainsRight (.charset T result) S c fun d => d ∈ data ∧ ∀ set ∈ sets, d ∉ set
  | charmapExcept table sets S c _ =>
      ∃ result, Charsets.charmapExcept table sets = some result ∧
        ContainsRight (.charmap result) S c fun d =>
          cell table d = some true ∧ ∀ set ∈ sets, ¬ set.Has d
  | bitmapExcept table sets _ S c _ =>
      ∃ result, Charsets.bitmapExcept table sets = some result ∧
        ContainsRight (.bitmap result) S c fun d =>
          cell table d = some true ∧ ∀ set ∈ sets, ¬ set.Has d
  | agree T data map bits _ c _ =>
      ∃ b, (AnySet.charset T data).contains (limits T) c = some b ∧
        (AnySet.charmap map).contains (limits T) c = some b ∧
          (AnySet.bitmap bits).contains (limits T) c = some b

/-- When it is. -/
def HoldsWhen : Question → Prop
  | contains call _ _ _ c _ => call.HoldsAt c
  | charsetExcept T data sets _ _ _ _ c _ =>
      sets.flatten.length ≤ commonCount data sets ∧
        (T.cast c = 0 → sets.flatten.length < commonCount data sets →
          0 ∈ data ∧ ∀ set ∈ sets, (0 : ℤ) ∉ set)
  | charmapExcept table sets _ c _ =>
      (∀ d ∈ (AnySet.charmap table).elements,
        Answer d sets ∧ ((∃ set ∈ sets, ¬ set.Has (set.received d)) → d < table.length)) ∧
      c ≠ table.length ∧
      ((c ∈ (AnySet.charmap table).elements ∧ ∃ set ∈ sets, ¬ set.Has (set.received c)) ↔
        cell table c = some true ∧ ∀ set ∈ sets, ¬ set.Has c)
  | bitmapExcept table sets _ _ c _ =>
      (∀ d : ℤ, 0 ≤ d → d < table.length → Answer d sets) ∧ c ≠ table.length ∧
      (((0 ≤ c ∧ c < table.length) ∧ ∃ set ∈ sets, ¬ set.Has (set.received c)) ↔
        cell table c = some true ∧ ∀ set ∈ sets, ¬ set.Has c)
  | agree _ _ map bits _ c _ => c ≠ map.length ∧ c ≠ bits.length

theorem charmapExcept_iff (table : Table) (sets : List AnySet) {c : ℤ} (has : S.Has c) :
    (charmapExcept table sets S c has).Right ↔ (charmapExcept table sets S c has).HoldsWhen := by
  refine tableExcept_right_iff (fun _ => rfl) (fun _ => rfl) (fun _ => Iff.rfl) ?_ has
  intro d hd
  obtain ⟨b, -, rfl⟩ := List.mem_map.1 hd
  cases b
  · exact ⟨⟨by decide, by decide⟩, by decide⟩
  · exact ⟨⟨by decide, by decide⟩, by decide⟩

theorem bitmapExcept_iff (table : Table) (sets : List AnySet) (size : table.length < 2 ^ 64)
    {c : ℤ} (has : S.Has c) :
    (bitmapExcept table sets size S c has).Right ↔
      (bitmapExcept table sets size S c has).HoldsWhen := by
  have hsteps : ∀ d ∈ steps 0 table.length, sizeLimits.Has d ∧ 0 ≤ d := by
    intro d hd
    obtain ⟨h₀, hlt⟩ := mem_steps.1 hd
    refine ⟨⟨?_, fun hneg => absurd h₀ (not_le.2 hneg)⟩, h₀⟩
    have hmax : sizeLimits.max = 2 ^ 64 - 1 := by decide
    rw [hmax]
    omega
  rw [Right, HoldsWhen, Charsets.bitmapExcept,
    tableExcept_right_iff (fun _ => rfl) (fun _ => rfl) (fun _ => Iff.rfl) hsteps has, mem_steps]
  refine and_congr_left' ⟨fun h d h₀ hlt => (h d (mem_steps.2 ⟨h₀, hlt⟩)).1, fun h d hd => ?_⟩
  obtain ⟨h₀, hlt⟩ := mem_steps.1 hd
  exact ⟨h d h₀ hlt, fun _ => hlt⟩

theorem agree_iff {map bits : Table}
    (same : ∀ c, (c ∈ data ↔ cell map c = some true) ∧ (c ∈ data ↔ cell bits c = some true))
    {c : ℤ} (has : T.Has c) :
    (agree T data map bits same c has).Right ↔ (agree T data map bits same c has).HoldsWhen := by
  have hmap := fun b => tableContains_eq_some (t := map) (b := b) (limits_has has)
  have hbits := fun b => tableContains_eq_some (t := bits) (b := b) (limits_has has)
  constructor
  · rintro ⟨b, -, hb, hb'⟩
    exact ⟨((hmap b).1 hb).1, ((hbits b).1 hb').1⟩
  · rintro ⟨hne, hne'⟩
    have hmem : data.contains (T.cast c) = true ↔ c ∈ data := by
      rw [CharType.cast_of_has has, List.contains_iff_mem]
    exact ⟨_, rfl, (hmap _).2 ⟨hne, hmem.trans (same c).1⟩,
      (hbits _).2 ⟨hne', hmem.trans (same c).2⟩⟩

/-- A question is answered as it should be if and only if `HoldsWhen`. -/
theorem right_iff (q : Question) : q.Right ↔ q.HoldsWhen := by
  cases q with
  | contains call set built S c has => exact contains_build_iff built has
  | charsetExcept T data sets nonempty subset disjoint S c has =>
      exact charsetExcept_right_iff nonempty disjoint has
  | charmapExcept table sets S c has => exact charmapExcept_iff table sets has
  | bitmapExcept table sets size S c has => exact bitmapExcept_iff table sets size has
  | agree T data map bits same c has => exact agree_iff same has

/-- The map of the letters from `a` to `z` reads behind its end for a `{`. -/
theorem not_right : ¬ ∀ q : Question, q.Right := by
  intro h
  have hbuilt : (Call.charmapRange char 97 122).build ≠ none := by decide +kernel
  obtain ⟨set, hset⟩ := Option.ne_none_iff_exists'.1 hbuilt
  have hright := h (contains (.charmapRange char 97 122) set hset char 123 (by decide))
  have hholds := (contains_build_iff hset (by decide)).1 hright
  exact hholds.1 123 rfl rfl

end Question

end Webpp.Text.Charsets
