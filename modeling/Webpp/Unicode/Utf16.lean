import Webpp.Unicode.Utf8

/-!
# UTF-16

Both decoders do not put a surrogate pair together as `append` takes it apart. The forward decoder
keeps the bits of the surrogates, and the backward decoder takes the trail surrogate for both. The
mask for the first unit also hits the units from U+FC00 on.
-/

namespace Webpp.Unicode.Utf16

open UnitCode

/-- `*pos` as a code point -/
abbrev read (s : List UInt16) (pos : ℕ) : Option ℕ := readAs UInt16.toNat s pos

/-- `unchecked::append` with the number of the units it reports -/
def append (out : List UInt16) (codePoint : ℕ) : List UInt16 × ℕ :=
  if codePoint ≤ 0xFFFF then (out ++ [UInt16.ofNat codePoint], 1)
  else
    (out ++ [UInt16.ofNat (0xD7C0 + codePoint >>> 10), UInt16.ofNat (0xDC00 + (codePoint &&& 0x3FF))],
      2)

/-- `next_code_point(pos)` with the position after it -/
def nextCodePoint (s : List UInt16) (pos : ℕ) : Option (ℕ × ℕ) := do
  let val ← read s pos
  if val &&& 0xFC00 = 0xD800 then
    let second ← read s (pos + 1)
    return (val <<< 16 ||| second, pos + 2)
  else
    return (val, pos + 1)

/-- `prev_code_point(pos)` with the position it moves to, which is not moved again for the other
unit of a pair -/
def prevCodePoint (s : List UInt16) (pos : ℕ) : Option (ℕ × ℕ) := do
  let pos ← back pos
  let val ← read s pos
  if val &&& 0xFC00 ≠ 0xDC00 then
    return (val, pos)
  else
    let val := val &&& 0x3FF
    let unit ← read s pos
    return (val ||| (unit &&& 0x3FF) <<< 10, pos)

def isCodeUnitStart (unit : ℕ) : Bool := unit &&& 0xDC00 != 0xDC00

/-! ## Bits -/

theorem and_shiftLeft (c m i : ℕ) : c &&& m <<< i = (c >>> i &&& m) <<< i := by
  apply Nat.eq_of_testBit_eq
  intro j
  rw [Nat.testBit_and, Nat.testBit_shiftLeft, Nat.testBit_shiftLeft, Nat.testBit_and,
    Nat.testBit_shiftRight]
  by_cases h : i ≤ j
  · simp [h, Nat.add_sub_cancel' h]
  · simp [h]

theorem high_bits : ∀ q < 64, ((q &&& 0x3F) <<< 10 = 0xD800 ↔ q = 0x36) ∧
    ((q &&& 0x3F) <<< 10 = 0xDC00 ↔ q = 0x37) ∧
    ((q &&& 0x37) <<< 10 = 0xDC00 ↔ q = 0x37 ∨ q = 0x3F) := by
  decide +kernel

section Masks

variable {unit : ℕ}

theorem shiftRight_lt (h : unit < 0x10000) : unit >>> 10 < 64 := by
  rw [Nat.shiftRight_eq_div_pow]
  omega

theorem and_FC00_eq_D800_iff (h : unit < 0x10000) :
    unit &&& 0xFC00 = 0xD800 ↔ 0xD800 ≤ unit ∧ unit < 0xDC00 := by
  have hand : unit &&& 0xFC00 = (unit >>> 10 &&& 0x3F) <<< 10 := and_shiftLeft unit 0x3F 10
  rw [hand, (high_bits _ (shiftRight_lt h)).1, Nat.shiftRight_eq_div_pow]
  omega

theorem and_FC00_eq_DC00_iff (h : unit < 0x10000) :
    unit &&& 0xFC00 = 0xDC00 ↔ 0xDC00 ≤ unit ∧ unit < 0xE000 := by
  have hand : unit &&& 0xFC00 = (unit >>> 10 &&& 0x3F) <<< 10 := and_shiftLeft unit 0x3F 10
  rw [hand, (high_bits _ (shiftRight_lt h)).2.1, Nat.shiftRight_eq_div_pow]
  omega

theorem isCodeUnitStart_iff (h : unit < 0x10000) :
    isCodeUnitStart unit = true ↔ ¬ (0xDC00 ≤ unit ∧ unit < 0xE000) ∧ unit < 0xFC00 := by
  have hand : unit &&& 0xDC00 = (unit >>> 10 &&& 0x37) <<< 10 := and_shiftLeft unit 0x37 10
  rw [isCodeUnitStart, bne_iff_ne, ne_eq, hand, (high_bits _ (shiftRight_lt h)).2.2,
    Nat.shiftRight_eq_div_pow]
  omega

end Masks

/-! ## Code points -/

/-- The units `append` writes. -/
def encode (c : ℕ) : List UInt16 := (append [] c).1

theorem append_eq (out : List UInt16) (c : ℕ) :
    append out c = (out ++ encode c, (encode c).length) := by
  simp only [encode, append]
  split_ifs <;> simp

theorem encode_ne_nil (c : ℕ) : encode c ≠ [] := by
  simp only [encode, append]
  split_ifs <;> simp

theorem encode_of_lt {c : ℕ} (h : c < 0x10000) : ∃ a, encode c = [a] ∧ a.toNat = c := by
  refine ⟨UInt16.ofNat c, ?_, ?_⟩
  · rw [encode, append, if_pos (by omega), List.nil_append]
  · rw [UInt16.toNat_ofNat', Nat.mod_eq_of_lt h]

theorem encode_of_le {c : ℕ} (h : 0x10000 ≤ c) (hlt : c < 0x110000) :
    ∃ a b, encode c = [a, b] ∧ (0xD800 ≤ a.toNat ∧ a.toNat < 0xDC00) ∧
      0xDC00 ≤ b.toNat ∧ b.toNat < 0xE000 := by
  refine ⟨UInt16.ofNat (0xD7C0 + c >>> 10), UInt16.ofNat (0xDC00 + (c &&& 0x3FF)), ?_, ?_, ?_⟩
  · rw [encode, append, if_neg (by omega), List.nil_append]
  · rw [UInt16.toNat_ofNat', Nat.shiftRight_eq_div_pow]
    omega
  · have hand : c &&& 0x3FF = c % 2 ^ 10 := Nat.and_two_pow_sub_one_eq_mod c 10
    rw [UInt16.toNat_ofNat', hand]
    omega

/-! ## Decoders at a code point -/

section Decoders

variable {c : ℕ} (before after : List UInt16)

theorem nextCodePoint_of_lt (hscalar : IsScalar c) (hc : c < 0x10000) :
    nextCodePoint (before ++ (encode c ++ after)) before.length =
      some (c, before.length + (encode c).length) := by
  obtain ⟨a, hencode, ha⟩ := encode_of_lt hc
  have hmask : ¬ c &&& 0xFC00 = 0xD800 := by
    rw [and_FC00_eq_D800_iff hc]
    rcases hscalar with h | h <;> omega
  rw [hencode]
  simp [nextCodePoint, ha, hmask]

theorem prevCodePoint_of_lt (hscalar : IsScalar c) (hc : c < 0x10000) :
    prevCodePoint (before ++ (encode c ++ after)) (before.length + (encode c).length) =
      some (c, before.length) := by
  obtain ⟨a, hencode, ha⟩ := encode_of_lt hc
  have hmask : ¬ c &&& 0xFC00 = 0xDC00 := by
    rw [and_FC00_eq_DC00_iff hc]
    rcases hscalar with h | h <;> omega
  rw [hencode]
  simp [prevCodePoint, ha, hmask]

/-- The lead surrogate is kept above the trail surrogate, so that the value is no code point. -/
theorem nextCodePoint_of_le (h : 0x10000 ≤ c) (hlt : c < 0x110000) :
    ∃ val pos', nextCodePoint (before ++ (encode c ++ after)) before.length = some (val, pos') ∧
      0x110000 ≤ val := by
  obtain ⟨a, b, hencode, ha, hb⟩ := encode_of_le h hlt
  have hmask : a.toNat &&& 0xFC00 = 0xD800 := (and_FC00_eq_D800_iff (by omega)).2 ha
  refine ⟨a.toNat <<< 16 ||| b.toNat, before.length + 2, ?_, ?_⟩
  · rw [hencode]
    simp [nextCodePoint, hmask]
  · have hle : a.toNat <<< 16 ≤ a.toNat <<< 16 ||| b.toNat := Nat.left_le_or
    rw [Nat.shiftLeft_eq] at hle ⊢
    omega

theorem prevCodePoint_of_le (h : 0x10000 ≤ c) (hlt : c < 0x110000) :
    ∃ val lead, ¬ IsScalar lead ∧
      prevCodePoint (before ++ (encode c ++ after)) (before.length + (encode c).length) =
        some (val, before.length + 1) ∧
      prevCodePoint (before ++ (encode c ++ after)) (before.length + 1) =
        some (lead, before.length) := by
  obtain ⟨a, b, hencode, ha, hb⟩ := encode_of_le h hlt
  have hlead : ¬ a.toNat &&& 0xFC00 = 0xDC00 := by
    rw [and_FC00_eq_DC00_iff (by omega)]
    omega
  have htrail : b.toNat &&& 0xFC00 = 0xDC00 := (and_FC00_eq_DC00_iff (by omega)).2 hb
  refine ⟨b.toNat &&& 0x3FF ||| (b.toNat &&& 0x3FF) <<< 10, a.toNat, ?_, ?_, ?_⟩
  · rintro (h | h) <;> omega
  · rw [hencode]
    simp [prevCodePoint, htrail]
  · rw [hencode]
    simp [prevCodePoint, hlead]

end Decoders

/-! ## Texts -/

section Texts

variable {cs : List ℕ}

theorem forwards_nextCodePoint_iff (hcs : ∀ c ∈ cs, IsScalar c) :
    forwards nextCodePoint (appendAll append cs) = some cs ↔ ∀ c ∈ cs, c < 0x10000 := by
  rw [appendAll_eq append_eq]
  have hiff : forwards nextCodePoint (text encode cs) = some cs ↔
      ∀ c ∈ cs, IsScalar c ∧ c < 0x10000 := forwards_iff encode_ne_nil ?_ ?_
  · rw [hiff]
    exact forall₂_congr (fun c hc => and_iff_right (hcs c hc))
  · rintro before c after ⟨hscalar, hc⟩
    exact nextCodePoint_of_lt _ after hscalar hc
  · rintro before c after n rfl hP hwalk
    have hscalar := hcs c (by simp)
    obtain ⟨val, pos', hstep, hval⟩ := nextCodePoint_of_le (text encode before)
      (text encode after) (Nat.le_of_not_lt (fun hc => hP ⟨hscalar, hc⟩)) (lt_of_isScalar hscalar)
    obtain ⟨pos'', m, hstep', -⟩ := walk_eq_some_cons hwalk
    rw [text_append, text_cons, hstep] at hstep'
    cases hstep'
    exact absurd (lt_of_isScalar hscalar) (Nat.not_lt.2 hval)

theorem backwards_prevCodePoint_iff (hcs : ∀ c ∈ cs, IsScalar c) :
    backwards prevCodePoint (appendAll append cs) = some cs.reverse ↔ ∀ c ∈ cs, c < 0x10000 := by
  rw [appendAll_eq append_eq]
  have hiff : backwards prevCodePoint (text encode cs) = some cs.reverse ↔
      ∀ c ∈ cs, IsScalar c ∧ c < 0x10000 := backwards_iff encode_ne_nil ?_ ?_
  · rw [hiff]
    exact forall₂_congr (fun c hc => and_iff_right (hcs c hc))
  · rintro before c after ⟨hscalar, hc⟩
    exact prevCodePoint_of_lt _ after hscalar hc
  · rintro before c after n rfl hP hwalk
    have hscalar := hcs c (by simp)
    obtain ⟨val, lead, hlead, hstep, hnext⟩ := prevCodePoint_of_le (text encode before)
      (text encode after) (Nat.le_of_not_lt (fun hc => hP ⟨hscalar, hc⟩)) (lt_of_isScalar hscalar)
    -- The lead surrogate would be the code point before `c`, but it is none.
    obtain ⟨pos', m, hstep', hrest⟩ := walk_eq_some_cons hwalk
    rw [text_append, text_cons] at hstep' hrest
    rw [hstep] at hstep'
    cases hstep'
    cases hbefore : before.reverse with
    | nil =>
        rw [hbefore] at hrest
        exact absurd (eq_of_walk_eq_nil hrest) (Nat.succ_ne_zero _)
    | cons c' before' =>
        rw [hbefore] at hrest
        obtain ⟨pos'', m', hstep'', -⟩ := walk_eq_some_cons hrest
        rw [hnext] at hstep''
        cases hstep''
        apply hlead
        apply hcs
        have hmem : lead ∈ before.reverse := by
          rw [hbefore]
          exact List.mem_cons_self
        exact List.mem_append_left _ (List.mem_reverse.1 hmem)

/-- `is_code_unit_start` finds the first units. -/
def FindsStarts (cs : List ℕ) : Prop :=
  ∀ before c after, cs = before ++ c :: after → ∀ k < (append [] c).2,
    ∃ unit, read (appendAll append cs) ((appendAll append before).length + k) = some unit ∧
      (isCodeUnitStart unit = true ↔ k = 0)

/-- At a code point, the first units are found if and only if its own unit is not hit by the
mask. -/
theorem starts_at_iff {c : ℕ} (hscalar : IsScalar c) (before after : List UInt16) :
    (∀ k < (encode c).length,
      ∃ unit, read (before ++ (encode c ++ after)) (before.length + k) = some unit ∧
        (isCodeUnitStart unit = true ↔ k = 0)) ↔ ¬ (0xFC00 ≤ c ∧ c < 0x10000) := by
  by_cases hc : c < 0x10000
  · obtain ⟨a, hencode, ha⟩ := encode_of_lt hc
    have hstart : isCodeUnitStart c = true ↔ c < 0xFC00 := by
      rw [isCodeUnitStart_iff hc]
      rcases hscalar with h | h <;> omega
    simp [hencode, ha, hstart, hc]
  · obtain ⟨a, b, hencode, ha, hb⟩ := encode_of_le (Nat.le_of_not_lt hc) (lt_of_isScalar hscalar)
    have hlead : isCodeUnitStart a.toNat = true := (isCodeUnitStart_iff (by omega)).2 (by omega)
    have htrail : isCodeUnitStart b.toNat = false := by
      rw [← Bool.not_eq_true, isCodeUnitStart_iff (by omega)]
      omega
    refine iff_of_true ?_ (fun h => hc h.2)
    intro k hk
    rw [hencode] at hk ⊢
    obtain rfl | rfl : k = 0 ∨ k = 1 := by
      simp at hk
      omega
    · exact ⟨a.toNat, by simp, by simp [hlead]⟩
    · exact ⟨b.toNat, by simp, by simp [htrail]⟩

theorem findsStarts_iff (hcs : ∀ c ∈ cs, IsScalar c) :
    FindsStarts cs ↔ ∀ c ∈ cs, ¬ (0xFC00 ≤ c ∧ c < 0x10000) := by
  constructor
  · intro h c hc
    obtain ⟨before, after, rfl⟩ := List.append_of_mem hc
    have hstarts := h before c after rfl
    rw [append_eq, appendAll_eq append_eq, appendAll_eq append_eq, text_append, text_cons]
      at hstarts
    exact (starts_at_iff (hcs c hc) _ _).1 hstarts
  · rintro h before c after rfl
    rw [append_eq, appendAll_eq append_eq, appendAll_eq append_eq, text_append, text_cons]
    exact (starts_at_iff (hcs c (by simp)) _ _).2 (h c (by simp))

/-- What is appended is decoded in both directions, and the first units are found. -/
def RoundTrips (cs : List ℕ) : Prop :=
  forwards nextCodePoint (appendAll append cs) = some cs ∧
    backwards prevCodePoint (appendAll append cs) = some cs.reverse ∧ FindsStarts cs

theorem codePoints_roundTrip_iff (hcs : ∀ c ∈ cs, IsScalar c) :
    RoundTrips cs ↔ ∀ c ∈ cs, c < 0xFC00 := by
  rw [RoundTrips, forwards_nextCodePoint_iff hcs, backwards_prevCodePoint_iff hcs,
    findsStarts_iff hcs]
  constructor
  · rintro ⟨h, -, hstarts⟩ c hc
    have := h c hc
    have := hstarts c hc
    omega
  · intro h
    have hlt : ∀ c ∈ cs, c < 0x10000 := fun c hc => Nat.lt_trans (h c hc) (by decide)
    exact ⟨hlt, hlt, fun c hc hle => Nat.not_le.2 (h c hc) hle.1⟩

theorem roundTrips_dollar_euro : RoundTrips [0x24, 0x20AC] :=
  (codePoints_roundTrip_iff (by decide)).2 (by decide)

theorem not_roundTrips_deseret : (∀ c ∈ [0x10437], IsScalar c) ∧ ¬ RoundTrips [0x10437] := by
  refine ⟨by decide, ?_⟩
  rintro ⟨h, -⟩
  have hlt := (forwards_nextCodePoint_iff (by decide)).1 h 0x10437 List.mem_cons_self
  exact absurd hlt (by decide)

end Texts

end Webpp.Unicode.Utf16
