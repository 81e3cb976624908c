import Webpp.Foundation.InPlace
import Webpp.Unicode.Hangul
import Webpp.Unicode.Utf8

/-!
# `canonical_decompose`

The string grows to an upper bound, its text is copied to the end of the buffer and decomposed from
there to the beginning. The copy goes forwards although its target is behind its source, and the
bound of the lengths in the table, which the functions assume, is zero.

A read or a write outside of the buffer has no result, and neither has an assumption that does not
hold.
-/

namespace Webpp.Unicode

open InPlace UnitCode

/-- The entry of a block in `decomp_indices` -/
structure DecompIndex where
  pos : ℕ
  maxLength : ℕ
  deriving DecidableEq

/-- The generated tables: `decomp_indices` by the number of the block, and `decomp_values` -/
structure DecompTables where
  indices : ℕ → DecompIndex
  values : List UInt8

def trailingMappedDeomps : ℕ := 0x2FA40

/-- `decomp_index::max_utf8_mapped_length` -/
def maxUtf8MappedLength : ℕ := 0

/-- `decomp_index::get_position` with its assumption -/
def DecompIndex.getPosition (code : DecompIndex) (codePoint : ℕ) : Option ℕ :=
  if code.maxLength ≤ maxUtf8MappedLength then some (code.pos + codePoint % 64 * code.maxLength)
  else none

/-- The units `decompose_hangul` appends. -/
def decomposeHangul (codePoint : ℕ) : List UInt8 :=
  let parts := decomposedHangul codePoint
  if parts.trailing ≠ hangulTrailingBase then
    appendAll Utf8.append [parts.leading, parts.vowel, parts.trailing]
  else
    appendAll Utf8.append [parts.leading, parts.vowel]

/-- The loop over a mapping, with `unchecked::copy_next_into` for each of its code points. -/
def copyMapped (values : List UInt8) (stop : ℕ) : ℕ → ℕ → Option (List UInt8 × ℕ)
  | 0, _ => none
  | n + 1, pos => do
      let unit ← values[pos]?
      if unit ≠ 0 ∧ pos ≠ stop then
        let size ← Utf8.requiredLengthOf unit.toNat
        if size ≤ 6 ∧ pos + size ≤ values.length then
          let rest ← copyMapped values stop n (pos + size)
          return ((values.drop pos).take size ++ rest.1, rest.2)
        else
          none
      else
        return ([], pos)

/-- The units `canonical_decompose_to` appends. -/
def canonicalDecomposeTo (t : DecompTables) (codePoint : ℕ) : Option (List UInt8) :=
  if trailingMappedDeomps ≤ codePoint then some (Utf8.append [] codePoint).1
  else if isHangulCodePoint codePoint then some (decomposeHangul codePoint)
  else
    let code := t.indices (codePoint >>> 6)
    if code.maxLength = 0 then some (Utf8.append [] codePoint).1
    else do
      let start ← code.getPosition codePoint
      if code.maxLength ≤ maxUtf8MappedLength then
        let mapped ← copyMapped t.values (start + code.maxLength) (code.maxLength + 1) start
        -- `start_ptr - ptr` is negative for a mapping that is not empty
        if mapped.2 = start then
          return (Utf8.append [] codePoint).1
        else if 2 ^ 64 - (mapped.2 - start) ≤ maxUtf8MappedLength then
          return mapped.1
        else
          none
      else
        none

/-- `canonical_decompose_to` for each code point, one after the other -/
def canonicalDecomposeAll (t : DecompTables) : List ℕ → Option (List UInt8)
  | [] => some []
  | c :: cs => do
      let units ← canonicalDecomposeTo t c
      let rest ← canonicalDecomposeAll t cs
      return units ++ rest

/-- `hangul_decompose_length_utf8` -/
def hangulDecomposeLength (codePoint : ℕ) : ℕ :=
  (if (codePoint - hangulSyllableBase) % hangulTrailingCount ≠ 0 then 3 else 2) * 3

structure DecompositionDetails where
  maxLength : ℕ
  requiresMapping : Bool
  deriving DecidableEq

/-- One round of the loop of `canon_decomp_details` -/
def addDetails (t : DecompTables) (info : DecompositionDetails) (codePoint : ℕ) :
    DecompositionDetails :=
  if isHangulCodePoint codePoint then
    { maxLength := info.maxLength + hangulDecomposeLength codePoint, requiresMapping := true }
  else if trailingMappedDeomps ≤ codePoint then info
  else
    let code := t.indices (codePoint >>> 6)
    { maxLength := info.maxLength + code.maxLength
      requiresMapping := if code.maxLength ≠ 0 then true else info.requiresMapping }

def canonDecompDetails (t : DecompTables) (s : List UInt8) : Option DecompositionDetails :=
  (forwards Utf8.nextCodePoint s).map (fun cs =>
    let info := cs.foldl (addDetails t) ⟨0, false⟩
    { info with maxLength := info.maxLength + s.length })

/-- The loop of the lambda in `canonical_decompose`, with the buffer, the write cursor, and what the
two cursors are after each code point. The end is the end of the buffer. -/
def decomposeFrom (t : DecompTables) :
    ℕ → List UInt8 → ℕ → ℕ → Option (List UInt8 × ℕ × List (ℕ × ℕ))
  | 0, _, _, _ => none
  | n + 1, buf, ptr, backupStart =>
      if backupStart = buf.length then some (buf, ptr, [])
      else do
        let next ← Utf8.nextCodePoint buf backupStart
        let units ← canonicalDecomposeTo t next.1
        let buf ← writeAll buf ptr units
        let rest ← decomposeFrom t n buf (ptr + units.length) next.2
        return (rest.1, rest.2.1, (ptr + units.length, next.2) :: rest.2.2)

/-- `canonical_decompose` with the cursors of its loop. What is in the buffer behind the text after
it has grown is `fresh`. -/
def canonicalDecompose (t : DecompTables) (fresh : ℕ → UInt8) (out : List UInt8) :
    Option (List UInt8 × List (ℕ × ℕ)) := do
  let info ← canonDecompDetails t out
  if info.requiresMapping = false then
    return (out, [])
  else if out.length ≤ info.maxLength then
    let grown := (List.range (info.maxLength - out.length)).map fresh
    let buf := out ++ grown
    if out.length = info.maxLength then
      let run ← decomposeFrom t (buf.length + 1) buf 0 0
      return (run.1.take run.2.1, run.2.2)
    else
      let backupStart := info.maxLength - out.length
      let buf ← copyForward out.length buf 0 backupStart
      let run ← decomposeFrom t (buf.length + 1) buf 0 backupStart
      return (run.1.take run.2.1, run.2.2)
  else
    none

/-! ## Code points -/

section CodePoints

variable {t : DecompTables} {c : ℕ}

/-- The code point is looked up in a block that has mappings. -/
def Mapped (t : DecompTables) (c : ℕ) : Prop :=
  c < trailingMappedDeomps ∧ isHangulCodePoint c = false ∧ (t.indices (c >>> 6)).maxLength ≠ 0

instance (t : DecompTables) : DecidablePred (Mapped t) := fun _ =>
  inferInstanceAs (Decidable (_ ∧ _ ∧ _))

/-- The units of the decomposition of a code point that has no mapping in the tables. -/
def unmappedUnits (c : ℕ) : List UInt8 :=
  if isHangulCodePoint c then decomposeHangul c else Utf8.encode c

/-- The bound for how much longer a code point gets. -/
def growth (c : ℕ) : ℕ := if isHangulCodePoint c then hangulDecomposeLength c else 0

theorem isHangulCodePoint_of_trailing (h : trailingMappedDeomps ≤ c) :
    isHangulCodePoint c = false := by
  rw [← Bool.not_eq_true, isHangulCodePoint_iff]
  rw [trailingMappedDeomps] at h
  omega

theorem canonicalDecomposeTo_of_not_mapped (h : ¬ Mapped t c) :
    canonicalDecomposeTo t c = some (unmappedUnits c) := by
  rw [canonicalDecomposeTo, unmappedUnits]
  by_cases htrailing : trailingMappedDeomps ≤ c
  · rw [if_pos htrailing, isHangulCodePoint_of_trailing htrailing]
    rfl
  · rw [if_neg htrailing]
    by_cases hhangul : isHangulCodePoint c = true
    · rw [if_pos hhangul, if_pos hhangul]
    · have hzero : (t.indices (c >>> 6)).maxLength = 0 := by
        by_contra hne
        exact h ⟨Nat.lt_of_not_le htrailing, Bool.eq_false_of_not_eq_true hhangul, hne⟩
      rw [if_neg hhangul, if_neg hhangul]
      dsimp only
      rw [if_pos hzero]
      rfl

theorem canonicalDecomposeTo_of_mapped (h : Mapped t c) : canonicalDecomposeTo t c = none := by
  obtain ⟨hlt, hhangul, hne⟩ := h
  have hassume : ¬ (t.indices (c >>> 6)).maxLength ≤ maxUtf8MappedLength :=
    fun hle => hne (Nat.le_zero.1 hle)
  rw [canonicalDecomposeTo, if_neg (Nat.not_le.2 hlt), hhangul, if_neg Bool.false_ne_true]
  dsimp only
  rw [if_neg hne, DecompIndex.getPosition, if_neg hassume]
  rfl

theorem canonicalDecomposeAll_of_not_mapped {cs : List ℕ} (h : ∀ c ∈ cs, ¬ Mapped t c) :
    canonicalDecomposeAll t cs = some (text unmappedUnits cs) := by
  induction cs with
  | nil => rfl
  | cons c cs ih =>
      rw [List.forall_mem_cons] at h
      rw [canonicalDecomposeAll, canonicalDecomposeTo_of_not_mapped h.1, ih h.2]
      rfl

theorem not_mapped_of_canonicalDecomposeAll {cs : List ℕ} {out : List UInt8}
    (h : canonicalDecomposeAll t cs = some out) : ∀ c ∈ cs, ¬ Mapped t c := by
  induction cs generalizing out with
  | nil => simp
  | cons c cs ih =>
      simp only [canonicalDecomposeAll, Option.bind_eq_bind, Option.bind_eq_some_iff] at h
      obtain ⟨units, hunits, rest, hrest, -⟩ := h
      rw [List.forall_mem_cons]
      refine ⟨?_, ih hrest⟩
      intro hmapped
      rw [canonicalDecomposeTo_of_mapped hmapped] at hunits
      cases hunits

theorem length_encode (hlow : 0x800 ≤ c) (hhigh : c < 0x10000) : (Utf8.encode c).length = 3 := by
  rw [Utf8.encode, Utf8.append, if_neg (by omega), if_neg (by omega), if_pos hhigh]
  rfl

theorem length_decomposeHangul (h : isHangulCodePoint c = true) :
    (decomposeHangul c).length = hangulDecomposeLength c := by
  obtain ⟨hlow, hhigh⟩ := (isHangulCodePoint_iff c).1 h
  have hleading : (Utf8.encode (4352 + (c - 44032) / 588)).length = 3 :=
    length_encode (by omega) (by omega)
  have hvowel : (Utf8.encode (4449 + (c - 44032) % 588 / 28)).length = 3 :=
    length_encode (by omega) (by omega)
  have htrailing : (Utf8.encode (4519 + (c - 44032) % 28)).length = 3 :=
    length_encode (by omega) (by omega)
  rw [decomposeHangul, hangulDecomposeLength, decomposedHangul_eq, hangulTrailingBase,
    hangulSyllableBase, hangulTrailingCount]
  dsimp only
  rw [appendAll_eq Utf8.append_eq, appendAll_eq Utf8.append_eq]
  by_cases hzero : (c - 44032) % 28 = 0
  · rw [if_neg (by omega), if_neg (by omega)]
    simp [hleading, hvowel]
  · rw [if_pos (by omega), if_pos hzero]
    simp [hleading, hvowel, htrailing]

theorem length_unmappedUnits_le (c : ℕ) :
    (unmappedUnits c).length ≤ (Utf8.encode c).length + growth c := by
  rw [unmappedUnits, growth]
  split_ifs with h
  · rw [length_decomposeHangul h]
    exact Nat.le_add_left _ _
  · exact Nat.le_refl _

end CodePoints

/-! ## Details -/

section Details

variable {t : DecompTables}

theorem foldl_addDetails {cs : List ℕ} (h : ∀ c ∈ cs, ¬ Mapped t c) (info : DecompositionDetails) :
    cs.foldl (addDetails t) info =
      { maxLength := info.maxLength + (cs.map growth).sum
        requiresMapping := info.requiresMapping || cs.any isHangulCodePoint } := by
  induction cs generalizing info with
  | nil => simp
  | cons c cs ih =>
      rw [List.forall_mem_cons] at h
      have hadd : addDetails t info c =
          { maxLength := info.maxLength + growth c
            requiresMapping := info.requiresMapping || isHangulCodePoint c } := by
        rw [addDetails, growth]
        by_cases hhangul : isHangulCodePoint c = true
        · rw [if_pos hhangul, if_pos hhangul, hhangul, Bool.or_true]
        · rw [if_neg hhangul, if_neg hhangul, Bool.eq_false_of_not_eq_true hhangul, Bool.or_false]
          by_cases htrailing : trailingMappedDeomps ≤ c
          · rw [if_pos htrailing]
            rfl
          · have hzero : (t.indices (c >>> 6)).maxLength = 0 := by
              by_contra hne
              exact h.1 ⟨Nat.lt_of_not_le htrailing, Bool.eq_false_of_not_eq_true hhangul, hne⟩
            rw [if_neg htrailing]
            dsimp only
            rw [hzero, if_neg (fun hne => hne rfl)]
      rw [List.foldl_cons, hadd, ih h.2]
      simp [Nat.add_assoc, Bool.or_assoc]

theorem canonDecompDetails_text {cs : List ℕ} (hcs : ∀ c ∈ cs, IsScalar c)
    (h : ∀ c ∈ cs, ¬ Mapped t c) :
    canonDecompDetails t (appendAll Utf8.append cs) =
      some
        { maxLength := (cs.map growth).sum + (appendAll Utf8.append cs).length
          requiresMapping := cs.any isHangulCodePoint } := by
  rw [canonDecompDetails, Utf8.forwards_nextCodePoint hcs, Option.map_some]
  dsimp only
  rw [foldl_addDetails h]
  simp

end Details

/-! ## The loop -/

section Loop

variable {t : DecompTables}

/-- The gap that is left when `c` has been read behind it and written to its begin. -/
def gapBehind (gap : List UInt8) (c : ℕ) : List UInt8 :=
  (gap ++ Utf8.encode c).drop (unmappedUnits c).length

theorem length_gapBehind (gap : List UInt8) (c : ℕ) :
    (gapBehind gap c).length = gap.length + (Utf8.encode c).length - (unmappedUnits c).length := by
  rw [gapBehind, List.length_drop, List.length_append]

variable {c : ℕ} {gap : List UInt8}

theorem writeAll_gap (hgap : growth c ≤ gap.length) (written rest : List UInt8) :
    writeAll (written ++ (gap ++ (Utf8.encode c ++ rest))) written.length (unmappedUnits c) =
      some (written ++ (unmappedUnits c ++ (gapBehind gap c ++ rest))) := by
  have hgrowth := length_unmappedUnits_le c
  have htake : ((gap ++ Utf8.encode c).take (unmappedUnits c).length).length =
      (unmappedUnits c).length := by
    rw [List.length_take, List.length_append]
    omega
  have hsplit : gap ++ (Utf8.encode c ++ rest) =
      (gap ++ Utf8.encode c).take (unmappedUnits c).length ++ (gapBehind gap c ++ rest) := by
    rw [gapBehind, ← List.append_assoc gap, ← List.append_assoc (List.take _ _),
      List.take_append_drop]
  rw [hsplit]
  exact writeAll_append htake written (gapBehind gap c ++ rest)

theorem decomposeFrom_cons (hc : c < 0x110000) (hmapped : ¬ Mapped t c)
    (hgap : growth c ≤ gap.length) (written : List UInt8) (rest : List ℕ) (n : ℕ) :
    decomposeFrom t (n + 1) (written ++ (gap ++ text Utf8.encode (c :: rest))) written.length
        (written.length + gap.length) =
      (decomposeFrom t n (written ++ unmappedUnits c ++ (gapBehind gap c ++ text Utf8.encode rest))
          (written ++ unmappedUnits c).length
          ((written ++ unmappedUnits c).length + (gapBehind gap c).length)).map
        (fun run => (run.1, run.2.1, ((written ++ unmappedUnits c).length,
          (written ++ unmappedUnits c).length + (gapBehind gap c).length) :: run.2.2)) := by
  have hne := List.length_pos_of_ne_nil (Utf8.encode_ne_nil c)
  have hgrowth := length_unmappedUnits_le c
  have hstop : ¬ written.length + gap.length =
      (written ++ (gap ++ text Utf8.encode (c :: rest))).length := by
    simp only [text_cons, List.length_append]
    omega
  have hnext := (Utf8.movesBy_encode hc (written ++ gap) (text Utf8.encode rest)).nextCodePoint
  rw [List.length_append, List.append_assoc] at hnext
  have hpos : written.length + gap.length + (Utf8.encode c).length =
      (written ++ unmappedUnits c).length + (gapBehind gap c).length := by
    rw [length_gapBehind, List.length_append]
    omega
  rw [decomposeFrom, if_neg hstop, text_cons, hnext]
  simp only [Option.bind_eq_bind, Option.bind_some]
  rw [canonicalDecomposeTo_of_not_mapped hmapped, Option.bind_some, writeAll_gap hgap,
    Option.bind_some, hpos, List.append_assoc, List.length_append, Option.map_eq_bind]
  rfl

/-- The gap between the cursors is never smaller than what the rest of the text can grow. -/
theorem decomposeFrom_text {rest : List ℕ} (hrest : ∀ c ∈ rest, c < 0x110000)
    (hmapped : ∀ c ∈ rest, ¬ Mapped t c) (written : List UInt8) {gap : List UInt8}
    (hgap : (rest.map growth).sum ≤ gap.length) {n : ℕ} (hn : rest.length < n) :
    ∃ left cursors,
      decomposeFrom t n (written ++ (gap ++ text Utf8.encode rest)) written.length
          (written.length + gap.length) =
        some (written ++ (text unmappedUnits rest ++ left),
          written.length + (text unmappedUnits rest).length, cursors) ∧
      ∀ p ∈ cursors, p.1 ≤ p.2 := by
  induction rest generalizing written gap n with
  | nil =>
      obtain ⟨n, rfl⟩ := Nat.exists_eq_add_of_lt hn
      refine ⟨gap, [], ?_, by simp⟩
      have hstop : written.length + gap.length =
          (written ++ (gap ++ text Utf8.encode [])).length := by simp
      rw [decomposeFrom, if_pos hstop]
      simp
  | cons c rest ih =>
      obtain ⟨n, rfl⟩ := Nat.exists_eq_add_of_lt hn
      rw [List.forall_mem_cons] at hrest hmapped
      rw [List.map_cons, List.sum_cons] at hgap
      have hgrowth := length_unmappedUnits_le c
      have hgap' : (rest.map growth).sum ≤ (gapBehind gap c).length := by
        rw [length_gapBehind]
        omega
      have hlt : rest.length < (c :: rest).length + n := by
        rw [List.length_cons]
        omega
      obtain ⟨left, cursors, hrun, hcursors⟩ :=
        ih hrest.2 hmapped.2 (written ++ unmappedUnits c) hgap' hlt
      refine ⟨left, ((written ++ unmappedUnits c).length,
        (written ++ unmappedUnits c).length + (gapBehind gap c).length) :: cursors, ?_, ?_⟩
      · rw [decomposeFrom_cons hrest.1 hmapped.1 (le_of_add_le_left hgap), hrun, Option.map_some]
        simp [Nat.add_assoc]
      · rw [List.forall_mem_cons]
        exact ⟨Nat.le_add_right _ _, hcursors⟩

end Loop

/-! ## The contract -/

/-- The result is the decomposition of each code point, one after the other, and the write cursor
does not overtake the read cursor. -/
def Decomposes (t : DecompTables) (fresh : ℕ → UInt8) (cs : List ℕ) : Prop :=
  ∃ out cursors, canonicalDecompose t fresh (appendAll Utf8.append cs) = some (out, cursors) ∧
    canonicalDecomposeAll t cs = some out ∧ ∀ p ∈ cursors, p.1 ≤ p.2

section Contract

variable {t : DecompTables} {fresh : ℕ → UInt8} {cs : List ℕ}

theorem text_unmappedUnits_of_any (h : cs.any isHangulCodePoint = false) :
    text unmappedUnits cs = text Utf8.encode cs := by
  induction cs with
  | nil => rfl
  | cons c cs ih =>
      rw [List.any_cons, Bool.or_eq_false_iff] at h
      rw [text_cons, text_cons, ih h.2, unmappedUnits, h.1]
      rfl

theorem sum_growth_pos (h : cs.any isHangulCodePoint = true) : 0 < (cs.map growth).sum := by
  obtain ⟨c, hc, hhangul⟩ := List.any_eq_true.1 h
  refine List.sum_pos_iff_exists_pos_nat.2 ⟨growth c, List.mem_map_of_mem hc, ?_⟩
  rw [growth, if_pos hhangul, hangulDecomposeLength]
  split_ifs <;> decide

theorem decomposes_of_repeats (hcs : ∀ c ∈ cs, IsScalar c) (hmapped : ∀ c ∈ cs, ¬ Mapped t c)
    (hrepeats : Repeats (cs.map growth).sum (appendAll Utf8.append cs)) :
    Decomposes t fresh cs := by
  have hall := canonicalDecomposeAll_of_not_mapped hmapped
  have hdetails := canonDecompDetails_text hcs hmapped
  by_cases hhangul : cs.any isHangulCodePoint = true
  · have hpos := sum_growth_pos hhangul
    generalize hd : (cs.map growth).sum = d at hdetails hrepeats hpos
    have hgrown : ((List.range d).map fresh).length = d := by simp
    rw [← hgrown] at hrepeats
    obtain ⟨gap, hcopy, hgap⟩ := copyForward_of_repeats hrepeats
    rw [hgrown] at hcopy hgap
    rw [appendAll_eq Utf8.append_eq] at hcopy hdetails
    have hfuel : cs.length < (gap ++ text Utf8.encode cs).length + 1 := by
      have := length_le_text Utf8.encode_ne_nil cs
      rw [List.length_append]
      omega
    obtain ⟨left, cursors, hrun, hcursors⟩ := decomposeFrom_text
      (fun c hc => lt_of_isScalar (hcs c hc)) hmapped [] (hd.trans hgap.symm).le hfuel
    rw [List.nil_append, List.length_nil, Nat.zero_add, hgap] at hrun
    refine ⟨text unmappedUnits cs, cursors, ?_, hall, hcursors⟩
    have hne : ¬ (text Utf8.encode cs).length = d + (text Utf8.encode cs).length := by omega
    rw [canonicalDecompose, appendAll_eq Utf8.append_eq, hdetails]
    simp only [Option.bind_eq_bind, Option.bind_some, hhangul, Bool.true_eq_false, if_false,
      Nat.le_add_left, if_true, hne, Nat.add_sub_cancel_right]
    rw [hcopy, Option.bind_some, hrun, Option.bind_some]
    simp
  · have hfalse := Bool.eq_false_of_not_eq_true hhangul
    refine ⟨appendAll Utf8.append cs, [], ?_, ?_, by simp⟩
    · rw [canonicalDecompose, hdetails]
      simp [hfalse]
    · rw [hall, text_unmappedUnits_of_any hfalse, appendAll_eq Utf8.append_eq]

end Contract

/-- No code point may be looked up in a block with mappings, and the text has to repeat at the
distance of its places before and after the copy, which is the case if there is no syllable, and if
the text is not longer than the bound for its growth. -/
theorem canonicalDecompose_utf8 (t : DecompTables) (fresh : ℕ → UInt8) (cs : List ℕ)
    (hcs : ∀ c ∈ cs, IsScalar c) :
    ((∀ c ∈ cs, ¬ Mapped t c) ∧ Repeats (cs.map growth).sum (appendAll Utf8.append cs) →
        Decomposes t fresh cs) ∧
      (Decomposes t fresh cs → ∀ c ∈ cs, ¬ Mapped t c) := by
  constructor
  · rintro ⟨hmapped, hrepeats⟩
    exact decomposes_of_repeats hcs hmapped hrepeats
  · rintro ⟨out, cursors, -, hall, -⟩
    exact not_mapped_of_canonicalDecomposeAll hall

/-- The first blocks of the tables. -/
def firstBlocks : DecompTables where
  indices block := if block = 3 then ⟨0, 3⟩ else ⟨0, 0⟩
  values := []

theorem canonicalDecompose_syllable : Decomposes firstBlocks (fun _ => 0) [0x61, 0xAC00] := by
  apply (canonicalDecompose_utf8 firstBlocks _ [0x61, 0xAC00] (by decide)).1
  refine ⟨by decide, repeats_of_length_le ?_⟩
  decide

/-- A short text with a mapping, and a long one with a syllable, whose end is overwritten. -/
theorem not_decomposes_letters : ¬ Decomposes firstBlocks (fun _ => 0) [0xE9] ∧
    ¬ Decomposes firstBlocks (fun _ => 0)
      [0xAC00, 0x61, 0x62, 0x63, 0x64, 0x65, 0x66, 0x67] := by
  constructor
  · rintro ⟨out, cursors, hrun, -, -⟩
    have hnone : canonicalDecompose firstBlocks (fun _ => 0) (appendAll Utf8.append [0xE9]) =
        none := by decide +kernel
    rw [hnone] at hrun
    cases hrun
  · rintro ⟨out, cursors, hrun, hall, -⟩
    have hne : (canonicalDecompose firstBlocks (fun _ => 0)
          (appendAll Utf8.append [0xAC00, 0x61, 0x62, 0x63, 0x64, 0x65, 0x66, 0x67])).map Prod.fst ≠
        canonicalDecomposeAll firstBlocks [0xAC00, 0x61, 0x62, 0x63, 0x64, 0x65, 0x66, 0x67] := by
      decide +kernel
    rw [hrun, hall] at hne
    exact hne rfl

/-- What is lost can be the same text in another spelling. -/
example : (canonicalDecompose firstBlocks (fun _ => 0)
      (appendAll Utf8.append [0xAC00, 0x1100, 0x1161, 0x78, 0x79, 0x7A, 0x1100, 0x1161, 0xAC00])).map
        Prod.fst =
    canonicalDecomposeAll firstBlocks
      [0xAC00, 0x1100, 0x1161, 0x78, 0x79, 0x7A, 0x1100, 0x1161, 0xAC00] := by
  decide +kernel

end Webpp.Unicode
