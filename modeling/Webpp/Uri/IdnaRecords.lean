import Webpp.Unicode.Utf16
import Webpp.Uri.IdnaMapping

/-!
# The mapping of a code point

`perform_mapping` tells the kinds of records apart by the words it finds. No length is equal to
the mask of disallowed records, and the first word of the next record passes for the word of a
sequenced one; the other two kinds are mapped as the table says.
-/

namespace Webpp.Uri.Idna

open Loop HighMask RecordTable

def sequencedMask : UInt32 := 0x7F000000

def sequencedCheckMask : UInt32 := sequencedMask ||| mappedMask

def lengthLimit : ℕ := 126

/-- A kind of strings with its `unchecked::append`. -/
structure OutStr (υ : Type) where
  append : List υ → ℕ → List υ
  encode : ℕ → List υ
  append_eq : ∀ out codePoint, append out codePoint = out ++ encode codePoint
  encode_ne_nil : ∀ codePoint, encode codePoint ≠ []

def OutStr.utf8 : OutStr UInt8 where
  append out codePoint := (Unicode.Utf8.append out codePoint).1
  encode := Unicode.Utf8.encode
  append_eq out codePoint := by rw [Unicode.Utf8.append_eq]
  encode_ne_nil := Unicode.Utf8.encode_ne_nil

def OutStr.utf16 : OutStr UInt16 where
  append out codePoint := (Unicode.Utf16.append out codePoint).1
  encode := Unicode.Utf16.encode
  append_eq out codePoint := by rw [Unicode.Utf16.append_eq]
  encode_ne_nil := Unicode.Utf16.encode_ne_nil

def OutStr.utf32 : OutStr UInt32 where
  append out codePoint := out ++ [UInt32.ofNat codePoint]
  encode codePoint := [UInt32.ofNat codePoint]
  append_eq _ _ := rfl
  encode_ne_nil _ := List.cons_ne_nil _ _

section PerformMapping

variable {υ : Type} (str : OutStr υ) (ndebug : Bool) (table : List UInt32)

/-- `assert`, which does nothing where `NDEBUG` is defined -/
def assert (holds : Bool) : Except Fault Unit :=
  if ndebug || holds then .ok () else .error .assertion

/-- The loop until the next first word, over the words from `cur_pos` on. -/
def appendMapped : List UInt32 → List υ → Except Fault (List υ)
  | [], _ => .error .outside
  | word :: rest, out =>
      if word &&& mappedMask = 0 then
        appendMapped rest (str.append out (word &&& ~~~disallowedMask).toNat)
      else .ok out

/-- `perform_mapping`, with the string behind it -/
def performMapping (inpCh : UInt32) (out : List υ) : Except Fault (Bool × List υ) := do
  let pos ← findMappingCodePoint table inpCh
  let firstCodePoint ← read table pos
  let length := (firstCodePoint &&& ~~~mappedMask) >>> 24
  if length = disallowedMask then
    let rangeStart := firstCodePoint &&& ~~~disallowedMask
    let rangeEnd ← read table (pos + 1)
    assert ndebug (rangeStart ≤ inpCh && inpCh ≤ rangeEnd)
    return (false, out)
  else
    let rangeStart := firstCodePoint &&& ~~~disallowedMask
    let rangeEnd := rangeStart + length
    let nextWord ← read table (pos + 1)
    assert ndebug (rangeStart ≤ inpCh && inpCh ≤ rangeEnd)
    if nextWord &&& sequencedCheckMask ≠ 0 then
      let diff := inpCh - rangeStart
      let codePoint := (nextWord &&& ~~~disallowedMask) + diff
      return (true, str.append out codePoint.toNat)
    else
      let out ← appendMapped str (table.drop (pos + 1)) out
      return (true, out)

end PerformMapping

/-! ## Records -/

/-- A record of the table, by the rules that its documentation gives. -/
inductive Record where
  | disallowed (first last : ℕ)
  | ignored (first length : ℕ)
  | mapped (first length : ℕ) (replacement : List ℕ)
  | sequenced (first length base : ℕ)

namespace Record

def first : Record → ℕ
  | disallowed first _ | ignored first _ | mapped first _ _ | sequenced first _ _ => first

def last : Record → ℕ
  | disallowed _ last => last
  | ignored first length | mapped first length _ | sequenced first length _ => first + length

/-- The length in the first word; a disallowed record has the ones of its mask there. -/
def lengthBits : Record → ℕ
  | disallowed _ _ => 127
  | ignored _ length | mapped _ length _ | sequenced _ length _ => length

/-- The first word: `[1bit = 1] + [7bit = length] + [24bit = start]` -/
def header (r : Record) : UInt32 := UInt32.ofNat (2 ^ 31 + 2 ^ 24 * r.lengthBits + r.first)

/-- The word of a sequenced record: `[1bit = 0] + [7bits = 1] + [24bits = mapped-value]` -/
def tagged (base : ℕ) : UInt32 := UInt32.ofNat (2 ^ 24 * 127 + base)

/-- The words behind the first one. -/
def body : Record → List UInt32
  | disallowed _ last => [UInt32.ofNat last]
  | ignored _ _ => []
  | mapped _ _ replacement => replacement.map UInt32.ofNat
  | sequenced _ _ base => [tagged base]

def words (r : Record) : List UInt32 := r.header :: r.body

/-- What stands behind the first word. -/
def BodyValid : Record → Prop
  | mapped _ _ replacement => replacement ≠ [] ∧ ∀ codePoint ∈ replacement, codePoint < 2 ^ 24
  | sequenced _ _ base => base < 2 ^ 24
  | _ => True

/-- A range that is below the ending code point, of a length that is no mark of disallowed records,
and a replacement of code points. -/
structure Valid (r : Record) : Prop where
  ordered : r.first ≤ r.last
  below : r.last < 2 ^ 24 - 1
  length : (∀ first last, r ≠ disallowed first last) → r.lengthBits ≤ lengthLimit
  body : r.BodyValid

/-- What a code point of the record is replaced by, if it is allowed. -/
def replacementOf (c : ℕ) : Record → Option (List ℕ)
  | disallowed _ _ => none
  | ignored _ _ => some []
  | mapped _ _ replacement => some replacement
  | sequenced first _ base => some [base + (c - first)]

/-- The records that stand for a replacement of at least one code point. -/
def Replaces : Record → Prop
  | mapped _ _ _ | sequenced _ _ _ => True
  | _ => False

section Words

variable {r : Record}

theorem Valid.lengthBits_le (h : r.Valid) : r.lengthBits ≤ 127 := by
  cases r with
  | disallowed first last => exact Nat.le_refl 127
  | _ => exact Nat.le_succ_of_le (h.length (by rintro _ _ ⟨⟩))

theorem Valid.first_lt (h : r.Valid) : r.first < 2 ^ 24 - 1 := Nat.lt_of_le_of_lt h.ordered h.below

theorem Valid.toNat_header (h : r.Valid) :
    r.header.toNat = 2 ^ 31 + 2 ^ 24 * r.lengthBits + r.first := by
  have hlength := h.lengthBits_le
  have hfirst := h.first_lt
  rw [header, UInt32.toNat_ofNat']
  omega

theorem Valid.isHeader_header (h : r.Valid) : IsHeader r.header := by
  rw [IsHeader, h.toNat_header]
  omega

theorem Valid.start_header (h : r.Valid) : start r.header = r.first := by
  have hfirst := h.first_lt
  rw [start, h.toNat_header]
  omega

theorem not_isHeader_ofNat {n : ℕ} (h : n < 2 ^ 31) : ¬ IsHeader (UInt32.ofNat n) := by
  rw [IsHeader, UInt32.toNat_ofNat']
  omega

theorem toNat_tagged {base : ℕ} (h : base < 2 ^ 24) :
    (tagged base).toNat = 2 ^ 24 * 127 + base := by
  rw [tagged, UInt32.toNat_ofNat', Nat.mod_eq_of_lt (by omega)]

theorem Valid.not_isHeader_body (h : r.Valid) : ∀ word ∈ r.body, ¬ IsHeader word := by
  intro word hword
  cases r with
  | disallowed first last =>
      rw [Record.body, List.mem_singleton] at hword
      rw [hword]
      exact not_isHeader_ofNat (Nat.lt_trans h.below (by decide))
  | ignored first length => cases hword
  | mapped first length replacement =>
      rw [Record.body, List.mem_map] at hword
      obtain ⟨codePoint, hmem, rfl⟩ := hword
      exact not_isHeader_ofNat (Nat.lt_trans (h.body.2 codePoint hmem) (by decide))
  | sequenced first length base =>
      have hbase : base < 2 ^ 24 := h.body
      rw [Record.body, List.mem_singleton] at hword
      rw [hword, tagged]
      exact not_isHeader_ofNat (by omega)

theorem Valid.start_of_mem (h : r.Valid) {word : UInt32} (hmem : word ∈ r.words)
    (hheader : IsHeader word) : start word = r.first := by
  rcases List.mem_cons.1 hmem with rfl | hbody
  · exact h.start_header
  · exact absurd hheader (h.not_isHeader_body word hbody)

end Words

end Record

/-- The `first-code-point` that ends the table. -/
def endingCodePoint : UInt32 := 0xFFFFFFFF

/-- Records with ranges that are apart and in order. -/
structure MappingTable where
  records : List Record
  valid : ∀ r ∈ records, r.Valid
  apart : records.Pairwise (fun r r' => r.last < r'.first)

namespace MappingTable

/-- The words of the records, and the one that ends the table. -/
def words (T : MappingTable) : List UInt32 := T.records.flatMap Record.words ++ [endingCodePoint]

section Layout

variable {T : MappingTable} {r : Record} {word : UInt32}

theorem isHeader_endingCodePoint : IsHeader endingCodePoint := by decide

theorem start_endingCodePoint : start endingCodePoint = 2 ^ 24 - 1 := by decide

theorem start_lt {r' : Record} (h : r.Valid) (h' : r'.Valid) (hlt : r.last < r'.first)
    {word word' : UInt32} (hmem : word ∈ r.words) (hmem' : word' ∈ r'.words)
    (hheader : IsHeader word) (hheader' : IsHeader word') : start word < start word' := by
  rw [h.start_of_mem hmem hheader, h'.start_of_mem hmem' hheader']
  exact Nat.lt_of_le_of_lt h.ordered hlt

theorem words_pairwise (T : MappingTable) :
    T.words.Pairwise (fun word word' =>
      IsHeader word → IsHeader word' → start word < start word') := by
  rw [words, List.pairwise_append, List.pairwise_flatMap]
  refine ⟨⟨fun r hr => ?_, ?_⟩, List.pairwise_singleton _ _, ?_⟩
  · have hbody := (T.valid r hr).not_isHeader_body
    refine List.pairwise_cons.2 ⟨fun word hword _ hheader => ?_, ?_⟩
    · exact absurd hheader (hbody word hword)
    · exact List.pairwise_of_forall_mem_list fun word hword _ _ hheader _ =>
        absurd hheader (hbody word hword)
  · refine T.apart.imp_of_mem fun {r r'} hr hr' hlt word hword word' hword' => ?_
    exact start_lt (T.valid r hr) (T.valid r' hr') hlt hword hword'
  · intro word hword word' hword' hheader _
    obtain ⟨r, hr, hmem⟩ := List.mem_flatMap.1 hword
    rw [List.mem_singleton.1 hword', (T.valid r hr).start_of_mem hmem hheader,
      start_endingCodePoint]
    exact (T.valid r hr).first_lt

theorem isMappingTable (T : MappingTable) : IsMappingTable T.words where
  head := by
    rw [words]
    cases hrecords : T.records with
    | nil => exact ⟨endingCodePoint, rfl, isHeader_endingCodePoint⟩
    | cons r rest =>
        have hvalid : r.Valid := T.valid r (hrecords ▸ List.mem_cons_self)
        exact ⟨r.header, rfl, hvalid.isHeader_header⟩
  increasing := T.words_pairwise

theorem exists_header_cons (records : List Record) (h : ∀ r ∈ records, r.Valid) :
    ∃ next behind, records.flatMap Record.words ++ [endingCodePoint] = next :: behind ∧
      IsHeader next := by
  cases records with
  | nil => exact ⟨endingCodePoint, [], rfl, isHeader_endingCodePoint⟩
  | cons r rest => exact ⟨r.header, _, rfl, (h r List.mem_cons_self).isHeader_header⟩

theorem words_split (hr : r ∈ T.records) :
    ∃ front next behind, T.words = front ++ r.header :: (r.body ++ next :: behind) ∧
      IsHeader next ∧ ∀ word ∈ next :: behind, IsHeader word → r.last < start word := by
  obtain ⟨pre, post, hsplit⟩ := List.append_of_mem hr
  have hpost : ∀ r' ∈ post, r' ∈ T.records := fun r' hr' => by simp [hsplit, hr']
  obtain ⟨next, behind, hcons, hnext⟩ :=
    exists_header_cons post fun r' hr' => T.valid r' (hpost r' hr')
  refine ⟨pre.flatMap Record.words, next, behind, ?_, hnext, ?_⟩
  · rw [words, hsplit, ← hcons]
    simp [Record.words]
  · intro word hword hheader
    rw [← hcons, List.mem_append, List.mem_singleton] at hword
    rcases hword with hmem | rfl
    · obtain ⟨r', hr', hmem'⟩ := List.mem_flatMap.1 hmem
      have hapart := T.apart
      rw [hsplit, List.pairwise_append, List.pairwise_cons] at hapart
      rw [(T.valid r' (hpost r' hr')).start_of_mem hmem' hheader]
      exact hapart.2.1.1 r' hr'
    · rw [start_endingCodePoint]
      exact (T.valid r hr).below

theorem findMappingCodePoint_eq {c : UInt32} {front behind : List UInt32} {next : UInt32}
    (hr : r.Valid) (hle : r.first ≤ c.toNat) (hge : c.toNat ≤ r.last)
    (hwords : T.words = front ++ r.header :: (r.body ++ next :: behind))
    (hbehind : ∀ word ∈ next :: behind, IsHeader word → r.last < start word) :
    findMappingCodePoint T.words c = .ok front.length := by
  have hc : c.toNat < 2 ^ 24 := by
    have hbelow := hr.below
    omega
  have hstarts : StartsBy (start c) r.header := by
    rw [start_of_lt hc]
    exact ⟨hr.isHeader_header, by rwa [hr.start_header]⟩
  have hlast : IsLast (StartsBy (start c)) T.words front.length := by
    rw [hwords]
    refine isLast_append hstarts fun word hword hby => ?_
    rcases List.mem_append.1 hword with hbody | hmem
    · exact hr.not_isHeader_body word hbody hby.1
    · have hlt := hbehind word hmem hby.1
      have hle' := hby.2
      rw [start_of_lt hc] at hle'
      omega
  have hfirst : Holds (StartsBy (start c)) T.words 0 :=
    (T.isMappingTable.initial (start c)).holds_of_le StartsBy.isHeader T.isMappingTable.head
      hlast.holds (Nat.zero_le _)
  obtain ⟨pos, heq, hpos⟩ := search_isLast T.isMappingTable hfirst hc
  rw [heq, hpos.unique hlast]

end Layout

end MappingTable

/-! ## The mapping -/

section Mapping

variable {υ : Type} {str : OutStr υ} {ndebug : Bool} {table front behind : List UInt32}
variable {header next c : UInt32} {out : List υ}

theorem shiftRight_ne_disallowedMask (word : UInt32) : word >>> 24 ≠ disallowedMask := by
  intro heq
  have hlt := word.toNat_lt
  have htoNat : (word >>> 24).toNat = word.toNat / 2 ^ 24 := by
    rw [UInt32.toNat_shiftRight]
    exact Nat.shiftRight_eq_div_pow _ 24
  have hmask : disallowedMask.toNat = 0xFF000000 := rfl
  rw [heq, hmask] at htoNat
  omega

theorem and_sequencedCheckMask_eq_zero (word : UInt32) :
    word &&& sequencedCheckMask = 0 ↔ word.toNat < 2 ^ 24 := by
  have hmask : sequencedCheckMask = disallowedMask := by decide
  rw [hmask, and_disallowedMask_eq_zero]

theorem toNat_and_not_disallowedMask (word : UInt32) :
    (word &&& ~~~disallowedMask).toNat = start word := by
  rw [UInt32.toNat_and]
  exact Nat.and_two_pow_sub_one_eq_mod word.toNat 24

theorem toNat_lengthBits (word : UInt32) :
    ((word &&& ~~~mappedMask) >>> 24).toNat = word.toNat % 2 ^ 31 / 2 ^ 24 := by
  have hand : (word &&& ~~~mappedMask).toNat = word.toNat % 2 ^ 31 := by
    rw [UInt32.toNat_and]
    exact Nat.and_two_pow_sub_one_eq_mod word.toNat 31
  rw [UInt32.toNat_shiftRight, hand]
  exact Nat.shiftRight_eq_div_pow _ 24

/-- The end of a range as the code computes it. -/
def rangeEnd (header : UInt32) : UInt32 :=
  (header &&& ~~~disallowedMask) + (header &&& ~~~mappedMask) >>> 24

/-- What `perform_mapping` does behind the search. -/
theorem performMapping_of_find (hfind : findMappingCodePoint table c = .ok front.length)
    (htable : table = front ++ header :: next :: behind) :
    performMapping str ndebug table c out = (do
      assert ndebug (header &&& ~~~disallowedMask ≤ c && c ≤ rangeEnd header)
      if next &&& sequencedCheckMask ≠ 0 then
        return (true, str.append out
          ((next &&& ~~~disallowedMask) + (c - (header &&& ~~~disallowedMask))).toNat)
      else
        let out ← appendMapped str (next :: behind) out
        return (true, out)) := by
  have hheader : read table front.length = .ok header := by simp [read, htable]
  have hnext : read table (front.length + 1) = .ok next := by simp [read, htable]
  have hdrop : table.drop (front.length + 1) = next :: behind := by simp [htable]
  simp only [performMapping, hfind, hheader, hnext, hdrop, bind, Except.bind, rangeEnd,
    if_neg (shiftRight_ne_disallowedMask _)]
  rfl

theorem performMapping_ne_false (out' : List υ) :
    performMapping str ndebug table c out ≠ .ok (false, out') := by
  have htrue : Sat (fun _ => True) (fun result => result.1 = true)
      (performMapping str ndebug table c out) := by
    refine (sat_any _).bind fun pos _ => (sat_any _).bind fun word _ => ?_
    rw [if_neg (shiftRight_ne_disallowedMask _)]
    refine (sat_any _).bind fun next _ => (sat_any _).bind fun _ _ => ?_
    split_ifs
    · rfl
    · exact (sat_any _).bind fun _ _ => rfl
  intro heq
  rw [heq, sat_ok] at htrue
  exact Bool.false_ne_true htrue

theorem appendMapped_eq {replacement : List ℕ} (h : ∀ codePoint ∈ replacement, codePoint < 2 ^ 24)
    (hnext : IsHeader next) (out : List υ) :
    appendMapped str (replacement.map UInt32.ofNat ++ next :: behind) out =
      .ok (out ++ replacement.flatMap str.encode) := by
  induction replacement generalizing out with
  | nil => simp [appendMapped, hnext]
  | cons codePoint rest ih =>
      have hlt : codePoint < 2 ^ 24 := h codePoint List.mem_cons_self
      have hword : (UInt32.ofNat codePoint).toNat = codePoint := by
        rw [UInt32.toNat_ofNat', Nat.mod_eq_of_lt (by omega)]
      have hnot : ¬ IsHeader (UInt32.ofNat codePoint) := Record.not_isHeader_ofNat (by omega)
      have hvalue : (UInt32.ofNat codePoint &&& ~~~disallowedMask).toNat = codePoint := by
        rw [toNat_and_not_disallowedMask, start_of_lt (by rwa [hword]), hword]
      rw [List.map_cons, List.cons_append, appendMapped,
        if_pos ((and_mappedMask_eq_zero _).2 hnot), hvalue, str.append_eq,
        ih fun codePoint' hmem => h codePoint' (List.mem_cons_of_mem _ hmem)]
      simp

variable {T : MappingTable} {r : Record}

theorem toNat_rangeStart (h : r.Valid) : (r.header &&& ~~~disallowedMask).toNat = r.first := by
  rw [toNat_and_not_disallowedMask, h.start_header]

theorem toNat_rangeEnd (h : r.Valid) : (rangeEnd r.header).toNat = r.first + r.lengthBits := by
  have hfirst := h.first_lt
  have hlength := h.lengthBits_le
  have hbits : (2 ^ 31 + 2 ^ 24 * r.lengthBits + r.first) % 2 ^ 31 / 2 ^ 24 = r.lengthBits := by
    rw [Nat.add_assoc, Nat.add_mod_left, Nat.mod_eq_of_lt (by omega)]
    omega
  rw [rangeEnd, UInt32.toNat_add, toNat_rangeStart h, toNat_lengthBits, h.toNat_header, hbits]
  omega

theorem assert_eq (h : r.Valid) (hle : r.first ≤ c.toNat)
    (hge : c.toNat ≤ r.first + r.lengthBits) :
    assert ndebug (r.header &&& ~~~disallowedMask ≤ c && c ≤ rangeEnd r.header) = .ok () := by
  have hstart : r.header &&& ~~~disallowedMask ≤ c := by
    rwa [UInt32.le_iff_toNat_le, toNat_rangeStart h]
  have hend : c ≤ rangeEnd r.header := by
    rwa [UInt32.le_iff_toNat_le, toNat_rangeEnd h]
  simp [assert, hstart, hend]

/-- What the table says of a code point of the record, as a result of `perform_mapping`. -/
def Record.outcome (str : OutStr υ) (c : ℕ) (out : List υ) (r : Record) : Bool × List υ :=
  match r.replacementOf c with
  | none => (false, out)
  | some codePoints => (true, out ++ codePoints.flatMap str.encode)

/-- `perform_mapping` does what the table says. -/
def PerformsMapping (str : OutStr υ) (ndebug : Bool) (T : MappingTable) (r : Record) (c : UInt32)
    (out : List υ) : Prop :=
  performMapping str ndebug T.words c out = .ok (r.outcome str c.toNat out)

theorem performsMapping_mapped {first length : ℕ} {replacement : List ℕ}
    (hr : .mapped first length replacement ∈ T.records) (hle : first ≤ c.toNat)
    (hge : c.toNat ≤ first + length) :
    PerformsMapping str ndebug T (.mapped first length replacement) c out := by
  have hvalid := T.valid _ hr
  obtain ⟨hne, hlt⟩ := hvalid.body
  obtain ⟨front, next, behind, hwords, hnext, hbehind⟩ := MappingTable.words_split hr
  have hfind := MappingTable.findMappingCodePoint_eq hvalid hle hge hwords hbehind
  obtain ⟨codePoint, rest, rfl⟩ := List.exists_cons_of_ne_nil hne
  have hplain : UInt32.ofNat codePoint &&& sequencedCheckMask = 0 := by
    have hcodePoint := hlt codePoint List.mem_cons_self
    rw [and_sequencedCheckMask_eq_zero, UInt32.toNat_ofNat', Nat.mod_eq_of_lt (by omega)]
    exact hcodePoint
  have happend : appendMapped str (UInt32.ofNat codePoint ::
      (rest.map UInt32.ofNat ++ next :: behind)) out =
        .ok (out ++ (codePoint :: rest).flatMap str.encode) := appendMapped_eq hlt hnext out
  rw [PerformsMapping, performMapping_of_find hfind hwords, assert_eq hvalid hle hge]
  simp [hplain, happend, bind, Except.bind, pure, Except.pure, Record.outcome,
    Record.replacementOf]

theorem performsMapping_sequenced {first length base : ℕ}
    (hr : .sequenced first length base ∈ T.records) (hle : first ≤ c.toNat)
    (hge : c.toNat ≤ first + length) :
    PerformsMapping str ndebug T (.sequenced first length base) c out := by
  have hvalid := T.valid _ hr
  have hbase : base < 2 ^ 24 := hvalid.body
  obtain ⟨front, next, behind, hwords, hnext, hbehind⟩ := MappingTable.words_split hr
  have hfind := MappingTable.findMappingCodePoint_eq hvalid hle hge hwords hbehind
  have hsequenced : Record.tagged base &&& sequencedCheckMask ≠ 0 := by
    rw [Ne, and_sequencedCheckMask_eq_zero, Record.toNat_tagged hbase]
    omega
  have hstart := toNat_rangeStart hvalid
  have hdiff : (c - (Record.header (.sequenced first length base) &&& ~~~disallowedMask)).toNat =
      c.toNat - first := by
    rw [UInt32.toNat_sub_of_le _ _ (by rwa [UInt32.le_iff_toNat_le, hstart]), hstart]
    rfl
  have hvalue : ((Record.tagged base &&& ~~~disallowedMask) +
      (c - (Record.header (.sequenced first length base) &&& ~~~disallowedMask))).toNat =
      base + (c.toNat - first) := by
    have hbelow := hvalid.below
    have hlow : (2 ^ 24 * 127 + base) % 2 ^ 24 = base := by omega
    simp only [Record.last] at hbelow
    rw [UInt32.toNat_add, hdiff, toNat_and_not_disallowedMask, start,
      Record.toNat_tagged hbase, hlow]
    omega
  rw [PerformsMapping, performMapping_of_find hfind hwords, assert_eq hvalid hle hge]
  simp only [bind, Except.bind, pure, Except.pure, if_pos hsequenced, hvalue, str.append_eq,
    Record.outcome, Record.replacementOf, List.flatMap_singleton]

theorem not_performsMapping_ignored {first length : ℕ}
    (hr : .ignored first length ∈ T.records) (hle : first ≤ c.toNat)
    (hge : c.toNat ≤ first + length) :
    ¬ PerformsMapping str ndebug T (.ignored first length) c out := by
  have hvalid := T.valid _ hr
  obtain ⟨front, next, behind, hwords, hnext, hbehind⟩ := MappingTable.words_split hr
  have hfind := MappingTable.findMappingCodePoint_eq hvalid hle hge hwords hbehind
  have hsequenced : next &&& sequencedCheckMask ≠ 0 := by
    rw [Ne, and_sequencedCheckMask_eq_zero]
    rw [IsHeader] at hnext
    omega
  rw [PerformsMapping, performMapping_of_find hfind hwords, assert_eq hvalid hle hge]
  simp [hsequenced, bind, Except.bind, pure, Except.pure, Record.outcome, Record.replacementOf,
    str.append_eq, str.encode_ne_nil]

/-- A code point is mapped as the table says if and only if its record stands for a replacement
of at least one code point. -/
theorem performMapping_right_iff (str : OutStr υ) (ndebug : Bool) (T : MappingTable) (out : List υ)
    {r : Record} (hr : r ∈ T.records) {c : UInt32} (hle : r.first ≤ c.toNat)
    (hge : c.toNat ≤ r.last) :
    PerformsMapping str ndebug T r c out ↔ r.Replaces := by
  cases r with
  | disallowed first last => exact iff_of_false (performMapping_ne_false out) not_false
  | ignored first length => exact iff_of_false (not_performsMapping_ignored hr hle hge) not_false
  | mapped first length replacement =>
      exact iff_of_true (performsMapping_mapped hr hle hge) trivial
  | sequenced first length base =>
      exact iff_of_true (performsMapping_sequenced hr hle hge) trivial

end Mapping

/-- The first records of the table, without the mapped ones after the first of them. -/
def MappingTable.firstRecords : MappingTable where
  records := [.sequenced 0x41 25 0x61, .disallowed 0x80 0x9F, .mapped 0xA0 0 [0x20],
    .ignored 0xAD 0]
  valid := by
    intro r hr
    simp only [List.mem_cons, List.not_mem_nil, or_false] at hr
    rcases hr with rfl | rfl | rfl | rfl
    · exact ⟨by decide, by decide, fun _ => by decide, (by decide : 0x61 < 2 ^ 24)⟩
    · exact ⟨by decide, by decide, fun h => absurd rfl (h 0x80 0x9F), trivial⟩
    · exact ⟨by decide, by decide, fun _ => by decide, List.cons_ne_nil _ _, by decide⟩
    · exact ⟨by decide, by decide, fun _ => by decide, trivial⟩
  apart := by decide

theorem performMapping_right_iff_letter :
    PerformsMapping .utf8 false .firstRecords (.sequenced 0x41 25 0x61) 0x43 [] ↔
      Record.Replaces (.sequenced 0x41 25 0x61) :=
  performMapping_right_iff .utf8 false .firstRecords [] List.mem_cons_self (by decide) (by decide)

/-- U+009F is appended for the disallowed U+0080. -/
theorem not_performsMapping_disallowed :
    ¬ PerformsMapping .utf8 true .firstRecords (.disallowed 0x80 0x9F) 0x80 [] :=
  performMapping_ne_false []

end Webpp.Uri.Idna
