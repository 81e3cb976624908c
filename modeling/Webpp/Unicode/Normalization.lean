import Webpp.Unicode.Composites
import Webpp.Unicode.Hangul

/-!
# `canonical_composed`

The second code point has its own part of a hash table, in which a slot is found by the remainder
of the first code point. A slot only keeps the low byte of the first code point, and an empty slot
is the one of a first code point whose low byte is zero. So a pair is composed wrongly if it
collides with another pair, or hits an empty slot.
-/

namespace Webpp.Unicode

def replacementChar : ℕ := 0xFFFD

def canonicalComposed (lhs rhs : ℕ) : ℕ :=
  let pos2 := rhs % cp2sRem
  if cp2sSize ≤ pos2 then replacementChar
  else
    let ⟨cp2, cp1Pos, cp1Rem⟩ := cp2s pos2
    if cp2 = 0 ∨ cp2 ≠ rhs then
      let hangul := composeHangul lhs rhs
      if hangul ≠ 0 then hangul else replacementChar
    else
      let pos := cp1Pos + lhs % cp1Rem
      let ⟨cp1Mask, replacement⟩ := cp1s pos
      if lhs % 256 ≠ cp1Mask then replacementChar else replacement

/-! ## The specification -/

/-- A primary composite with its canonical decomposition. -/
def IsComposite (c lhs rhs : ℕ) : Prop := ⟨c, lhs, rhs⟩ ∈ composites ∨ HangulComposite c lhs rhs

/-- What is composed is a primary composite with this decomposition. -/
def ComposedExactly (lhs rhs : ℕ) : Prop :=
  canonicalComposed lhs rhs = replacementChar ∨ IsComposite (canonicalComposed lhs rhs) lhs rhs

/-! ## Slots -/

/-- The slot of a pair, if the second code point is one that the table has. -/
def slot (lhs rhs : ℕ) : Option ℕ :=
  let entry := cp2s (rhs % cp2sRem)
  if rhs % cp2sRem < cp2sSize ∧ entry.cp2 ≠ 0 ∧ entry.cp2 = rhs then
    some (entry.cp1Pos + lhs % entry.cp1Rem)
  else none

/-- The entry of a composite. -/
def entryOf (c : Composite) : Option (ℕ × CP1) :=
  (slot c.lhs c.rhs).map (fun pos => (pos, ⟨c.lhs % 256, c.composite⟩))

theorem tables_fit : cp1sEntries.map some = composites.map entryOf ∧
    SparseTable.Increasing cp1sEntries ∧ SparseTable.Increasing cp2sEntries ∧
    (∀ e ∈ cp2sEntries, e.2.cp1Pos + e.2.cp1Rem ≤ cp1sSize ∧ 0 < e.2.cp1Rem) ∧
    ∀ c ∈ composites,
      c.composite ≠ replacementChar ∧ isHangulCodePoint c.composite = false ∧ c.composite ≠ 0 := by
  decide +kernel

theorem cp1sEntries_eq : cp1sEntries.map some = composites.map entryOf := tables_fit.1

theorem increasing_cp1sEntries : SparseTable.Increasing cp1sEntries := tables_fit.2.1

/-- The slots of the composites are not confused with what the function returns otherwise. -/
theorem composites_apart : ∀ c ∈ composites,
    c.composite ≠ replacementChar ∧ isHangulCodePoint c.composite = false ∧ c.composite ≠ 0 :=
  tables_fit.2.2.2.2

theorem mem_cp1sEntries_iff (pos : ℕ) (entry : CP1) :
    (pos, entry) ∈ cp1sEntries ↔
      ∃ c ∈ composites, slot c.lhs c.rhs = some pos ∧ entry = ⟨c.lhs % 256, c.composite⟩ := by
  have hmem : (pos, entry) ∈ cp1sEntries ↔ some (pos, entry) ∈ composites.map entryOf := by
    rw [← cp1sEntries_eq, List.mem_map_of_injective (Option.some_injective _)]
  rw [hmem, List.mem_map]
  apply exists_congr
  intro c
  apply and_congr_right
  intro _
  rw [entryOf, Option.map_eq_some_iff]
  constructor
  · rintro ⟨pos', hpos, heq⟩
    rw [Prod.mk.injEq] at heq
    obtain ⟨rfl, rfl⟩ := heq
    exact ⟨hpos, rfl⟩
  · rintro ⟨hpos, rfl⟩
    exact ⟨pos, hpos, rfl⟩

theorem nodup_entryOf : (composites.map entryOf).Nodup := by
  rw [← cp1sEntries_eq]
  apply List.Nodup.map (Option.some_injective _)
  exact increasing_cp1sEntries.pairwise.imp (fun hlt heq => Nat.ne_of_lt hlt (congrArg _ heq))

theorem eq_of_slot_eq {c d : Composite} (hc : c ∈ composites) (hd : d ∈ composites) {pos : ℕ}
    (hcpos : slot c.lhs c.rhs = some pos) (hdpos : slot d.lhs d.rhs = some pos) : c = d := by
  have hc' := (mem_cp1sEntries_iff pos _).2 ⟨c, hc, hcpos, rfl⟩
  have hd' := (mem_cp1sEntries_iff pos _).2 ⟨d, hd, hdpos, rfl⟩
  have heq := increasing_cp1sEntries.eq_of_mem hc' hd' rfl
  apply List.inj_on_of_nodup_map nodup_entryOf hc hd
  rw [entryOf, entryOf, hcpos, hdpos, Option.map_some, Option.map_some, heq]

theorem cp1s_cases (pos : ℕ) :
    (∃ c ∈ composites, slot c.lhs c.rhs = some pos ∧ cp1s pos = ⟨c.lhs % 256, c.composite⟩) ∨
      (∀ c ∈ composites, slot c.lhs c.rhs ≠ some pos) ∧ cp1s pos = ⟨0, 0⟩ := by
  rcases SparseTable.mem_or_lookup_eq increasing_cp1sEntries pos ⟨0, 0⟩ with hmem | ⟨hnone, hzero⟩
  · exact .inl ((mem_cp1sEntries_iff pos _).1 hmem)
  · right
    refine ⟨?_, hzero⟩
    intro c hc hpos
    exact hnone _ ((mem_cp1sEntries_iff pos _).2 ⟨c, hc, hpos, rfl⟩)

/-! ## Pairs with a slot -/

theorem canonicalComposed_of_slot {lhs rhs pos : ℕ} (h : slot lhs rhs = some pos) :
    canonicalComposed lhs rhs =
      if lhs % 256 ≠ (cp1s pos).cp1Mask then replacementChar else (cp1s pos).replacement := by
  simp only [slot, Option.ite_none_right_eq_some, Option.some.injEq] at h
  obtain ⟨⟨hlt, hcp2, hrhs⟩, rfl⟩ := h
  rw [canonicalComposed]
  dsimp only
  rw [if_neg (Nat.not_le.2 hlt), if_neg]
  rintro (hzero | hne)
  · exact hcp2 hzero
  · exact hne hrhs

theorem canonicalComposed_of_none {lhs rhs : ℕ} (h : slot lhs rhs = none) :
    canonicalComposed lhs rhs =
      if rhs % cp2sRem < cp2sSize ∧ composeHangul lhs rhs ≠ 0 then composeHangul lhs rhs
      else replacementChar := by
  simp only [slot, ite_eq_right_iff, reduceCtorEq, imp_false] at h
  rw [canonicalComposed]
  dsimp only
  by_cases hlt : rhs % cp2sRem < cp2sSize
  · rw [if_neg (Nat.not_le.2 hlt), if_pos]
    · by_cases hzero : composeHangul lhs rhs ≠ 0
      · rw [if_pos hzero, if_pos ⟨hlt, hzero⟩]
      · rw [if_neg hzero, if_neg (fun h' => hzero h'.2)]
    · by_contra hne
      rw [not_or, not_not] at hne
      exact h ⟨hlt, hne.1, hne.2⟩
  · rw [if_pos (Nat.not_lt.1 hlt), if_neg (fun h' => hlt h'.1)]

/-- No other pair has the slot and the low byte, and the low byte is not the one of an empty
slot. -/
def Apart (lhs rhs pos : ℕ) : Prop :=
  (lhs % 256 = 0 → ∃ c ∈ composites, slot c.lhs c.rhs = some pos) ∧
    ∀ c ∈ composites, slot c.lhs c.rhs = some pos → c.lhs % 256 = lhs % 256 →
      c.lhs = lhs ∧ c.rhs = rhs

theorem isComposite_iff_of_not_hangul {c lhs rhs : ℕ} (h : isHangulCodePoint c = false) :
    IsComposite c lhs rhs ↔ ⟨c, lhs, rhs⟩ ∈ composites := by
  rw [IsComposite, or_iff_left]
  rintro ⟨hhangul, -⟩
  rw [h] at hhangul
  cases hhangul

theorem composedExactly_of_slot {lhs rhs pos : ℕ} (h : slot lhs rhs = some pos) :
    ComposedExactly lhs rhs ↔ Apart lhs rhs pos := by
  rw [ComposedExactly, canonicalComposed_of_slot h]
  rcases cp1s_cases pos with ⟨c, hc, hpos, hentry⟩ | ⟨hempty, hentry⟩
  · obtain ⟨hne, hhangul, -⟩ := composites_apart c hc
    rw [hentry]
    dsimp only
    by_cases hmask : lhs % 256 = c.lhs % 256
    · rw [if_neg (not_not_intro hmask), or_iff_right hne, isComposite_iff_of_not_hangul hhangul]
      constructor
      · intro hmem
        refine ⟨fun _ => ⟨c, hc, hpos⟩, ?_⟩
        intro d hd hdpos _
        have hd' : d = ⟨c.composite, lhs, rhs⟩ := eq_of_slot_eq hd hmem hdpos h
        rw [hd']
        exact ⟨rfl, rfl⟩
      · rintro ⟨-, hall⟩
        obtain ⟨rfl, rfl⟩ := hall c hc hpos hmask.symm
        exact hc
    · rw [if_pos hmask]
      refine iff_of_true (.inl rfl) ⟨fun _ => ⟨c, hc, hpos⟩, ?_⟩
      intro d hd hdpos hdmask
      rw [← eq_of_slot_eq hc hd hpos hdpos] at hdmask
      exact absurd hdmask.symm hmask
  · rw [hentry]
    dsimp only
    by_cases hzero : lhs % 256 = 0
    · rw [if_neg (not_not_intro hzero)]
      refine iff_of_false ?_ ?_
      · rintro (heq | hcomp)
        · cases heq
        · rw [isComposite_iff_of_not_hangul (by decide)] at hcomp
          exact (composites_apart _ hcomp).2.2 rfl
      · rintro ⟨hocc, -⟩
        obtain ⟨c, hc, hpos⟩ := hocc hzero
        exact hempty c hc hpos
    · rw [if_pos hzero]
      refine iff_of_true (.inl rfl) ⟨fun h' => absurd h' hzero, ?_⟩
      intro d hd hdpos
      exact absurd hdpos (hempty d hd)

/-! ## Pairs without a slot -/

theorem composedExactly_of_none {lhs rhs : ℕ} (h : slot lhs rhs = none) :
    ComposedExactly lhs rhs ↔ ¬(isLeadingVowel lhs = true ∧ rhs = hangulTrailingBase) := by
  rw [ComposedExactly, canonicalComposed_of_none h, composeHangul_eq, isLeadingVowel_iff]
  by_cases h₁ : (4352 ≤ lhs ∧ lhs < 4371) ∧ 4449 ≤ rhs ∧ rhs < 4470
  · -- a leading consonant and a vowel
    rw [if_pos h₁]
    have hcomp : IsComposite (44032 + ((lhs - 4352) * 588 + (rhs - 4449) * 28)) lhs rhs := by
      right
      rw [hangulComposite_iff, if_pos (by omega)]
      omega
    refine iff_of_true ?_ (by rw [hangulTrailingBase]; omega)
    split_ifs
    · exact .inr hcomp
    · exact .inl rfl
  · rw [if_neg h₁]
    by_cases h₂ : (44032 ≤ lhs ∧ lhs < 55204 ∧ (lhs - 44032) % 28 = 0) ∧ 4519 ≤ rhs ∧ rhs < 4547
    · -- a syllable and what is taken for a trailing consonant
      have hsize : rhs % cp2sRem < cp2sSize ∧ lhs + rhs - 4519 ≠ 0 := by
        rw [cp2sRem, cp2sSize]
        omega
      have hhangul : isHangulCodePoint (lhs + rhs - 4519) = true := by
        rw [isHangulCodePoint_iff]
        omega
      rw [if_pos h₂, if_pos hsize]
      constructor
      · rintro (heq | hmem | hcomp) ⟨-, hbase⟩
        · rw [replacementChar] at heq
          omega
        · rw [(composites_apart _ hmem).2.1] at hhangul
          cases hhangul
        · rw [hangulComposite_iff, hbase, hangulTrailingBase] at hcomp
          rw [if_pos (by omega)] at hcomp
          omega
      · intro hbase
        right
        right
        rw [hangulTrailingBase] at hbase
        rw [hangulComposite_iff, if_neg (by omega)]
        omega
    · rw [if_neg h₂, if_neg (fun h' => h'.2 rfl)]
      refine iff_of_true (.inl rfl) ?_
      rw [hangulTrailingBase]
      omega

/-! ## All pairs -/

/-- The pairs for which what is composed is a composite of them. -/
def WellSlotted (lhs rhs : ℕ) : Prop :=
  match slot lhs rhs with
  | some pos => Apart lhs rhs pos
  | none => ¬(isLeadingVowel lhs = true ∧ rhs = hangulTrailingBase)

/-- What is composed is a primary composite with this decomposition, if and only if the pair
collides with no other, hits no empty slot and is not a syllable with the trailing base. -/
theorem composedExactly_iff (lhs rhs : ℕ) : ComposedExactly lhs rhs ↔ WellSlotted lhs rhs := by
  rw [WellSlotted]
  cases h : slot lhs rhs with
  | some pos => exact composedExactly_of_slot h
  | none => exact composedExactly_of_none h

/-- `Ç` and U+09D7 collide with the two code points of U+09CC. -/
theorem not_composedExactly_cedilla :
    ¬∀ lhs rhs : ℕ, canonicalComposed lhs rhs = replacementChar ∨
      IsComposite (canonicalComposed lhs rhs) lhs rhs := by
  intro h
  rcases h 0xC7 0x9D7 with heq | hmem | ⟨hhangul, -⟩
  · exact absurd heq (by decide +kernel)
  · exact absurd hmem (by decide +kernel)
  · exact absurd hhangul (by decide +kernel)

theorem canonicalComposed_composite {c : Composite} (hc : c ∈ composites) :
    canonicalComposed c.lhs c.rhs = c.composite := by
  have hentry : entryOf c ∈ cp1sEntries.map some := by
    rw [cp1sEntries_eq]
    exact List.mem_map_of_mem hc
  obtain ⟨e, -, he⟩ := List.mem_map.1 hentry
  obtain ⟨pos, hpos, -⟩ := Option.map_eq_some_iff.1 he.symm
  rw [canonicalComposed_of_slot hpos]
  rcases cp1s_cases pos with ⟨d, hd, hdpos, hslot⟩ | ⟨hempty, -⟩
  · rw [hslot, ← eq_of_slot_eq hc hd hpos hdpos]
    exact if_neg (not_not_intro rfl)
  · exact absurd hpos (hempty c hc)

end Webpp.Unicode
