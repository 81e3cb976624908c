import Webpp.Foundation.Bits
import Webpp.Foundation.Loop
import Webpp.Foundation.Tables

/-!
# The search of the IDNA mapping table

The table has words of 32 bits. A word with its top bit set begins a record, and its lowest 24 bits
are the first code point the record is about; the words up to the next such word belong to the same
record. `find_mapping_code_point` bisects the words, not the records.
-/

namespace Webpp.Uri.Idna

open Loop HighMask RecordTable

def disallowedMask : UInt32 := 0xFF000000

def mappedMask : UInt32 := 0x80000000

/-- What ends a search without a result. -/
inductive Fault where
  /-- A read, or an end of a walk, outside of the table. -/
  | outside
  /-- A failed `assert`. -/
  | assertion
  | exhausted
  deriving DecidableEq

/-- `*pos` -/
def read (table : List UInt32) (pos : ℕ) : Except Fault UInt32 :=
  match table[pos]? with
  | some word => .ok word
  | none => .error .outside

/-- The walk of `middle` back to the first word of a record, with the number of its steps. -/
def walkBack (table : List UInt32) : ℕ → ℕ → Except Fault (ℕ × ℕ)
  | 0, remaining => do
      let word ← read table 0
      if word &&& mappedMask = 0 then throw .outside else return (0, remaining)
  | middle + 1, remaining => do
      let word ← read table (middle + 1)
      if word &&& mappedMask = 0 then walkBack table middle (remaining + 1)
      else return (middle + 1, remaining)

/-- The linear search, over the words from `middle` on. -/
def linearSearch (element : UInt32) : List UInt32 → ℕ → ℕ → ℕ
  | [], _, chosen => chosen
  | word :: rest, middle, chosen =>
      if word &&& mappedMask = 0 then linearSearch element rest (middle + 1) chosen
      else if element < word ||| disallowedMask then chosen
      else linearSearch element rest (middle + 1) middle

/-- The variables of the binary search. -/
structure Bisection where
  length : ℕ
  chosen : ℕ

/-- A round of the binary search. -/
def searchRound (table : List UInt32) (element : UInt32) (s : Bisection) :
    Except Fault (Flow Bisection ℕ) := do
  let length := s.length >>> 1
  let (middle, remaining) ← walkBack table (s.chosen + length) 0
  if s.chosen = middle then
    let middle := middle + remaining + 1
    if table.length < middle then throw .outside
    else return .done (linearSearch element (table.drop middle) middle s.chosen)
  else
    let word ← read table middle
    if word ||| disallowedMask ≤ element then
      return .next ⟨length + remaining, middle⟩
    else
      return .next ⟨length, s.chosen⟩

/-- `find_mapping_code_point`, as a position in the table -/
def findMappingCodePoint (table : List UInt32) (askedChar : UInt32) : Except Fault ℕ :=
  if askedChar &&& disallowedMask ≠ 0 then .ok (table.length - 1)
  else
    loop (searchRound table (askedChar ||| disallowedMask)) .exhausted (table.length + 1)
      ⟨table.length, 0⟩

/-! ## Words -/

/-- A word with its top bit set. -/
def IsHeader (word : UInt32) : Prop := 2 ^ 31 ≤ word.toNat

instance : DecidablePred IsHeader := fun word => inferInstanceAs (Decidable (2 ^ 31 ≤ word.toNat))

/-- The lowest 24 bits of a word. -/
def start (word : UInt32) : ℕ := word.toNat % 2 ^ 24

theorem start_of_lt {word : UInt32} (h : word.toNat < 2 ^ 24) : start word = word.toNat :=
  Nat.mod_eq_of_lt h

theorem toNat_and_disallowedMask (word : UInt32) :
    (word &&& disallowedMask).toNat = 2 ^ 24 * (word.toNat / 2 ^ 24) := by
  rw [UInt32.toNat_and]
  exact and_highMask (n := 24) (k := 8) word.toNat_lt

theorem toNat_or_disallowedMask (word : UInt32) :
    (word ||| disallowedMask).toNat = highMask 24 8 + start word := by
  rw [UInt32.toNat_or]
  exact or_highMask (n := 24) (k := 8) word.toNat_lt

theorem toNat_and_mappedMask (word : UInt32) :
    (word &&& mappedMask).toNat = 2 ^ 31 * (word.toNat / 2 ^ 31) := by
  rw [UInt32.toNat_and]
  exact and_highMask (n := 31) (k := 1) word.toNat_lt

@[simp] theorem and_mappedMask_eq_zero (word : UInt32) :
    word &&& mappedMask = 0 ↔ ¬ IsHeader word := by
  have hlt := word.toNat_lt
  rw [← UInt32.toNat_inj, toNat_and_mappedMask, UInt32.toNat_zero, IsHeader]
  omega

theorem and_disallowedMask_eq_zero (word : UInt32) :
    word &&& disallowedMask = 0 ↔ word.toNat < 2 ^ 24 := by
  rw [← UInt32.toNat_inj, toNat_and_disallowedMask, UInt32.toNat_zero]
  omega

@[simp] theorem or_disallowedMask_le (word word' : UInt32) :
    word ||| disallowedMask ≤ word' ||| disallowedMask ↔ start word ≤ start word' := by
  rw [UInt32.le_iff_toNat_le, toNat_or_disallowedMask, toNat_or_disallowedMask]
  omega

@[simp] theorem or_disallowedMask_lt (word word' : UInt32) :
    word ||| disallowedMask < word' ||| disallowedMask ↔ start word < start word' := by
  rw [UInt32.lt_iff_toNat_lt, toNat_or_disallowedMask, toNat_or_disallowedMask]
  omega

/-! ## Tables -/

/-- A first word that is a header, and headers with increasing first code points. -/
structure IsMappingTable (table : List UInt32) : Prop where
  head : Holds IsHeader table 0
  increasing : table.Pairwise (fun word word' =>
    IsHeader word → IsHeader word' → start word < start word')

instance (table : List UInt32) : Decidable (IsMappingTable table) :=
  decidable_of_iff (Holds IsHeader table 0 ∧ table.Pairwise (fun word word' =>
      IsHeader word → IsHeader word' → start word < start word'))
    ⟨fun h => ⟨h.1, h.2⟩, fun h => ⟨h.head, h.increasing⟩⟩

/-- A header with a first code point that is not above the asked one. -/
def StartsBy (c : ℕ) (word : UInt32) : Prop := IsHeader word ∧ start word ≤ c

theorem StartsBy.isHeader {c : ℕ} (word : UInt32) (h : StartsBy c word) : IsHeader word := h.1

theorem IsMappingTable.initial {table : List UInt32} (h : IsMappingTable table) (c : ℕ) :
    Initial (StartsBy c) IsHeader table := by
  refine h.increasing.imp fun {word word'} hlt hheader hheader' hstarts => ⟨hheader, ?_⟩
  exact Nat.le_of_lt (Nat.lt_of_lt_of_le (hlt hheader hheader') hstarts.2)

/-! ## The search -/

section Search

variable {table : List UInt32} {pos middle chosen : ℕ}

theorem read_of_lt (h : pos < table.length) :
    ∃ word, read table pos = .ok word ∧ table[pos]? = some word := by
  refine ⟨table[pos], ?_, List.getElem?_eq_getElem h⟩
  rw [read, List.getElem?_eq_getElem h]

theorem walkBack_eq (hhead : Holds IsHeader table 0) (remaining : ℕ)
    (h : middle < table.length) :
    ∃ header ≤ middle, LastBelow IsHeader table (middle + 1) header ∧
      walkBack table middle remaining = .ok (header, remaining + (middle - header)) := by
  induction middle generalizing remaining with
  | zero =>
      obtain ⟨word, hread, hget⟩ := read_of_lt h
      have hheader : IsHeader word := (holds_iff_of_getElem? hget).1 hhead
      refine ⟨0, Nat.le_refl 0, hhead.lastBelow, ?_⟩
      rw [walkBack, hread]
      simp [bind, Except.bind, pure, Except.pure, hheader]
  | succ middle ih =>
      obtain ⟨word, hread, hget⟩ := read_of_lt h
      rw [walkBack, hread]
      by_cases hheader : IsHeader word
      · refine ⟨middle + 1, Nat.le_refl _, (holds_of_getElem? hget hheader).lastBelow, ?_⟩
        simp [bind, Except.bind, pure, Except.pure, hheader]
      · obtain ⟨header, hle, hlast, heq⟩ :=
          ih (remaining + 1) (Nat.lt_of_succ_lt h)
        refine ⟨header, Nat.le_succ_of_le hle, hlast.succ ?_, ?_⟩
        · rwa [holds_iff_of_getElem? hget]
        · have hsteps : remaining + 1 + (middle - header) = remaining + (middle + 1 - header) := by
            omega
          simp [bind, Except.bind, hheader, heq, hsteps]

theorem linearSearch_isLast {c : UInt32} (hinitial : Initial (StartsBy (start c)) IsHeader table)
    {rest : List UInt32} (hrest : table.drop middle = rest)
    (h : LastBelow (StartsBy (start c)) table middle chosen) (hmiddle : middle ≤ table.length) :
    IsLast (StartsBy (start c)) table
      (linearSearch (c ||| disallowedMask) rest middle chosen) := by
  induction rest generalizing middle chosen with
  | nil =>
      have hend : middle = table.length :=
        Nat.le_antisymm hmiddle (List.drop_eq_nil_iff.1 hrest)
      rw [linearSearch]
      rwa [hend] at h
  | cons word rest ih =>
      have hget : table[middle]? = some word := by
        rw [← List.head?_drop, hrest]
        rfl
      have hlt : middle < table.length := (List.getElem?_eq_some_iff.1 hget).1
      have hrest' : table.drop (middle + 1) = rest := by
        rw [← List.drop_drop, hrest]
        rfl
      rw [linearSearch]
      by_cases hheader : IsHeader word
      · by_cases hstart : start c < start word
        · have hnot : ¬ Holds (StartsBy (start c)) table middle := by
            rw [holds_iff_of_getElem? hget]
            exact fun hby => absurd hby.2 (Nat.not_le.2 hstart)
          simpa [hheader, hstart] using h.of_initial hinitial StartsBy.isHeader
            (holds_of_getElem? hget hheader) hnot
        · have hby : StartsBy (start c) word := ⟨hheader, Nat.le_of_not_lt hstart⟩
          simpa [hheader, hstart] using ih hrest' (holds_of_getElem? hget hby).lastBelow hlt
      · have hnot : ¬ Holds (StartsBy (start c)) table middle := by
          rw [holds_iff_of_getElem? hget]
          exact fun hby => hheader hby.1
        simpa [hheader] using ih hrest' (h.succ hnot) hlt

/-- The chosen word starts by the asked code point, and the words to look at are in the table. -/
structure Bisecting (table : List UInt32) (c : UInt32) (s : Bisection) : Prop where
  starts : Holds (StartsBy (start c)) table s.chosen
  inside : s.chosen + s.length ≤ table.length

theorem Bisecting.middle_lt {c : UInt32} {s : Bisection} (h : Bisecting table c s) :
    s.chosen + s.length >>> 1 < table.length := by
  have hchosen := h.starts.lt_length
  have hinside := h.inside
  rw [Nat.shiftRight_eq_div_pow]
  omega

/-- A round keeps what is known of the chosen word and shortens the length, or it ends with the
last header that starts by the asked code point. -/
theorem searchRound_sat (h : IsMappingTable table) {c : UInt32} {s : Bisection}
    (hs : Bisecting table c s) :
    Sat (fun _ => False)
      (FlowSat (fun s' => Bisecting table c s' ∧ s'.length < s.length)
        (IsLast (StartsBy (start c)) table))
      (searchRound table (c ||| disallowedMask) s) := by
  have hinside := hs.inside
  have hmiddle := hs.middle_lt
  have hhalf : s.length >>> 1 = s.length / 2 := Nat.shiftRight_eq_div_pow s.length 1
  obtain ⟨header, hle, hlast, hwalk⟩ := walkBack_eq h.head 0 hmiddle
  have hchosen : s.chosen ≤ header :=
    hlast.le_of_holds (hs.starts.mono StartsBy.isHeader) (by omega)
  rw [searchRound, hwalk]
  by_cases heq : s.chosen = header
  · subst heq
    have hend : s.chosen + (0 + (s.chosen + s.length >>> 1 - s.chosen)) + 1 =
        s.chosen + s.length >>> 1 + 1 := by omega
    have hfound : LastBelow (StartsBy (start c)) table (s.chosen + s.length >>> 1 + 1) s.chosen :=
      hlast.of_imp StartsBy.isHeader hs.starts
    simpa [bind, Except.bind, pure, Except.pure, hend, Nat.not_lt.2 hmiddle, FlowSat]
      using linearSearch_isLast (h.initial (start c)) rfl hfound hmiddle
  · obtain ⟨word, hread, hget⟩ := read_of_lt hlast.holds.lt_length
    by_cases hstart : start word ≤ start c
    · have hby : StartsBy (start c) word :=
        ⟨(holds_iff_of_getElem? hget).1 hlast.holds, hstart⟩
      have hnext : Bisecting table c
          ⟨s.length >>> 1 + (0 + (s.chosen + s.length >>> 1 - header)), header⟩ :=
        ⟨holds_of_getElem? hget hby, by dsimp only; omega⟩
      have hshorter : s.length >>> 1 + (0 + (s.chosen + s.length >>> 1 - header)) < s.length := by
        omega
      simpa [bind, Except.bind, pure, Except.pure, heq, hread, hstart, FlowSat]
        using And.intro hnext hshorter
    · have hnext : Bisecting table c ⟨s.length >>> 1, s.chosen⟩ :=
        ⟨hs.starts, by dsimp only; omega⟩
      have hshorter : s.length >>> 1 < s.length := by omega
      simpa [bind, Except.bind, pure, Except.pure, heq, hread, hstart, FlowSat]
        using And.intro hnext hshorter

/-- The search of a code point that is not before the first record. -/
theorem search_isLast (h : IsMappingTable table) {c : UInt32}
    (hfirst : Holds (StartsBy (start c)) table 0) (hc : c.toNat < 2 ^ 24) :
    ∃ pos, findMappingCodePoint table c = .ok pos ∧ IsLast (StartsBy (start c)) table pos := by
  have hplain : ¬ c &&& disallowedMask ≠ 0 := not_not.2 ((and_disallowedMask_eq_zero c).2 hc)
  have hbegin : Bisecting table c ⟨table.length, 0⟩ := ⟨hfirst, Nat.le_of_eq (Nat.zero_add _)⟩
  rw [findMappingCodePoint, if_neg hplain]
  exact (loop_sat (Bisecting table c) (IsLast (StartsBy (start c)) table) Bisection.length hbegin
    (fun s _ hs => searchRound_sat h hs) (Nat.lt_succ_self table.length)).exists_ok

end Search

/-- The search ends inside of the table, at the last header whose first code point is not above
the asked one. -/
theorem findMappingCodePoint_last {table : List UInt32} (h : IsMappingTable table) {c : UInt32}
    (hc : c.toNat < 2 ^ 24) (hfirst : Holds (fun word => start word ≤ c.toNat) table 0) :
    ∃ pos, findMappingCodePoint table c = .ok pos ∧
      IsLast (fun word => IsHeader word ∧ start word ≤ c.toNat) table pos := by
  have hstarts : Holds (StartsBy (start c)) table 0 := by
    obtain ⟨word, hword, hle⟩ := hfirst
    rw [start_of_lt hc]
    exact ⟨word, hword, (holds_iff_of_getElem? hword).1 h.head, hle⟩
  obtain ⟨pos, heq, hlast⟩ := search_isLast h hstarts hc
  rw [start_of_lt hc] at hlast
  exact ⟨pos, heq, hlast⟩

theorem findMappingCodePoint_last_example :
    ∃ pos, findMappingCodePoint [0x800000A0, 32, 0x800000A8, 32, 776, 0xFFFFFFFF] 0xAB = .ok pos ∧
      IsLast (fun word => IsHeader word ∧ start word ≤ (0xAB : UInt32).toNat)
        [0x800000A0, 32, 0x800000A8, 32, 776, 0xFFFFFFFF] pos :=
  findMappingCodePoint_last (by decide) (by decide) (by decide)

end Webpp.Uri.Idna
