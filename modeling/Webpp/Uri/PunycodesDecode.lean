import Webpp.Uri.Punycodes
import Mathlib.Tactic.NormNum

/-!
# The decoder of `utf8_to_punycode`

A sequence that is decoded is the one of a character, and a sequence is read up to the first byte
that rules it out. So the loop decodes the longest well-formed prefix of the text, and it reads
past the text if the text ends inside a sequence.
-/

namespace Webpp.Uri.Punycodes

variable {c : Char} {label : List Char} {b : Buffers} {n : ℕ}

/-! ## The bits of a byte -/

theorem forall_byte {P : UInt8 → Prop} (h : ∀ n < 256, P (UInt8.ofNat n)) (b : UInt8) : P b := by
  have hb := h b.toNat b.toNat_lt
  rwa [UInt8.ofNat_toNat] at hb

theorem byte_bits : ∀ b : UInt8, ((b &&& 0xE0 = 0xC0 ↔ b.toNat / 32 = 6) ∧
      (b &&& 0xF0 = 0xE0 ↔ b.toNat / 16 = 14) ∧ (b &&& 0xF8 = 0xF0 ↔ b.toNat / 8 = 30) ∧
      (continues b = true ↔ b.toNat / 64 = 2)) ∧
    (b &&& 0x1F).toNat = b.toNat % 32 ∧ (b &&& 0x0F).toNat = b.toNat % 16 ∧
      (b &&& 0x07).toNat = b.toNat % 8 ∧ (b &&& 0x3F).toNat = b.toNat % 64 :=
  forall_byte (by decide +kernel)

theorem leadsTwo_iff (b : UInt8) : b &&& 0xE0 = 0xC0 ↔ b.toNat / 32 = 6 := (byte_bits b).1.1

theorem leadsThree_iff (b : UInt8) : b &&& 0xF0 = 0xE0 ↔ b.toNat / 16 = 14 := (byte_bits b).1.2.1

theorem leadsFour_iff (b : UInt8) : b &&& 0xF8 = 0xF0 ↔ b.toNat / 8 = 30 :=
  (byte_bits b).1.2.2.1

theorem continues_iff (b : UInt8) : continues b = true ↔ b.toNat / 64 = 2 :=
  (byte_bits b).1.2.2.2

theorem payload_five (b : UInt8) : (b &&& 0x1F).toNat = b.toNat % 32 := (byte_bits b).2.1

theorem payload_four (b : UInt8) : (b &&& 0x0F).toNat = b.toNat % 16 := (byte_bits b).2.2.1

theorem payload_three (b : UInt8) : (b &&& 0x07).toNat = b.toNat % 8 := (byte_bits b).2.2.2.1

theorem payload_six (b : UInt8) : (b &&& 0x3F).toNat = b.toNat % 64 := (byte_bits b).2.2.2.2

theorem shiftLeft_or {y i : ℕ} (x : ℕ) (hy : y < 2 ^ i) : x <<< i ||| y = x * 2 ^ i + y := by
  rw [← Nat.shiftLeft_add_eq_or_of_lt hy, Nat.shiftLeft_eq]

theorem join_two (x y : ℕ) : x <<< 6 ||| y % 64 = x * 64 + y % 64 :=
  shiftLeft_or x (Nat.mod_lt y (by norm_num))

theorem join_three (x y z : ℕ) :
    x <<< 12 ||| (y % 64) <<< 6 ||| z % 64 = x * 4096 + (y % 64 * 64 + z % 64) := by
  have hy := Nat.mod_lt y (show 0 < 64 by norm_num)
  have hz := Nat.mod_lt z (show 0 < 64 by norm_num)
  rw [Nat.or_assoc, join_two]
  exact shiftLeft_or x (by norm_num; omega)

theorem join_four (x y z w : ℕ) :
    x <<< 18 ||| (y % 64) <<< 12 ||| (z % 64) <<< 6 ||| w % 64 =
      x * 262144 + (y % 64 * 4096 + (z % 64 * 64 + w % 64)) := by
  have hy := Nat.mod_lt y (show 0 < 64 by norm_num)
  have hz := Nat.mod_lt z (show 0 < 64 by norm_num)
  have hw := Nat.mod_lt w (show 0 < 64 by norm_num)
  rw [Nat.or_assoc, Nat.or_assoc, ← Nat.or_assoc _ _ (w % 64), join_three]
  exact shiftLeft_or x (by norm_num; omega)

/-! ## One sequence -/

/-- The length that a leading byte asks for. -/
def sequenceLength (lead : UInt8) : ℕ :=
  if lead.toNat / 32 = 6 then 2 else if lead.toNat / 16 = 14 then 3
  else if lead.toNat / 8 = 30 then 4 else 1

section

variable {look : ℕ} {byte : ℕ → UInt8}

theorem decodeNonAscii_two (hlook : 4 ≤ look) (h : (byte 0).toNat / 32 = 6) :
    decodeNonAscii look byte =
      if ¬continues (byte 1) then (none, 2)
      else
        let codePoint := (byte 0).toNat % 32 * 64 + (byte 1).toNat % 64
        if codePoint < 0x80 ∨ 0x7FF < codePoint then (none, 2)
        else (some (codePoint, 2), 2) := by
  simp only [decodeNonAscii, leadsTwo_iff, payload_five, payload_six, join_two]
  rw [if_pos h, if_neg (by omega)]

theorem decodeNonAscii_three (hlook : 4 ≤ look) (h : (byte 0).toNat / 16 = 14) :
    decodeNonAscii look byte =
      if ¬continues (byte 1) then (none, 2)
      else if ¬continues (byte 2) then (none, 3)
      else
        let codePoint :=
          (byte 0).toNat % 16 * 4096 + ((byte 1).toNat % 64 * 64 + (byte 2).toNat % 64)
        if codePoint < 0x800 ∨ 0xFFFF < codePoint ∨ (0xD7FF < codePoint ∧ codePoint < 0xE000) then
          (none, 3)
        else (some (codePoint, 3), 3) := by
  simp only [decodeNonAscii, leadsTwo_iff, leadsThree_iff, payload_four, payload_six, join_three]
  rw [if_neg (by omega), if_pos h, if_neg (by omega)]

theorem decodeNonAscii_four (hlook : 4 ≤ look) (h : (byte 0).toNat / 8 = 30) :
    decodeNonAscii look byte =
      if ¬continues (byte 1) then (none, 2)
      else if ¬continues (byte 2) then (none, 3)
      else if ¬continues (byte 3) then (none, 4)
      else
        let codePoint := (byte 0).toNat % 8 * 262144 +
          ((byte 1).toNat % 64 * 4096 + ((byte 2).toNat % 64 * 64 + (byte 3).toNat % 64))
        if codePoint ≤ 0xFFFF ∨ 0x10FFFF < codePoint then (none, 4)
        else (some (codePoint, 4), 4) := by
  simp only [decodeNonAscii, leadsTwo_iff, leadsThree_iff, leadsFour_iff, payload_three,
    payload_six, join_four]
  rw [if_neg (by omega), if_neg (by omega), if_pos h, if_neg (by omega)]

theorem decodeNonAscii_other (h₂ : (byte 0).toNat / 32 ≠ 6) (h₃ : (byte 0).toNat / 16 ≠ 14)
    (h₄ : (byte 0).toNat / 8 ≠ 30) : decodeNonAscii look byte = (none, 1) := by
  simp only [decodeNonAscii, leadsTwo_iff, leadsThree_iff, leadsFour_iff]
  rw [if_neg h₂, if_neg h₃, if_neg h₄]

theorem leading_cases (lead : UInt8) :
    lead.toNat / 32 = 6 ∧ sequenceLength lead = 2 ∨
      lead.toNat / 16 = 14 ∧ sequenceLength lead = 3 ∨
      lead.toNat / 8 = 30 ∧ sequenceLength lead = 4 ∨
      (lead.toNat / 32 ≠ 6 ∧ lead.toNat / 16 ≠ 14 ∧ lead.toNat / 8 ≠ 30) ∧
        sequenceLength lead = 1 := by
  rw [sequenceLength]
  split_ifs <;> omega

theorem count_two (hlook : 4 ≤ look) (h : (byte 0).toNat / 32 = 6) :
    (decodeNonAscii look byte).2 = 2 := by
  rw [decodeNonAscii_two hlook h]
  dsimp only
  split_ifs <;> rfl

theorem count_three (hlook : 4 ≤ look) (h : (byte 0).toNat / 16 = 14) :
    (decodeNonAscii look byte).2 = if continues (byte 1) then 3 else 2 := by
  rw [decodeNonAscii_three hlook h]
  dsimp only
  split_ifs <;> rfl

theorem count_four (hlook : 4 ≤ look) (h : (byte 0).toNat / 8 = 30) :
    (decodeNonAscii look byte).2 =
      if continues (byte 1) then (if continues (byte 2) then 4 else 3) else 2 := by
  rw [decodeNonAscii_four hlook h]
  dsimp only
  split_ifs <;> rfl

theorem count_le_iff (byte : ℕ → UInt8) (hlook : 4 ≤ look) {k : ℕ} (hk : 0 < k) :
    (decodeNonAscii look byte).2 ≤ k ↔
      ¬(k < sequenceLength (byte 0) ∧ ∀ i, 0 < i → i < k → continues (byte i) = true) := by
  rcases leading_cases (byte 0) with ⟨h, hs⟩ | ⟨h, hs⟩ | ⟨h, hs⟩ | ⟨⟨h₂, h₃, h₄⟩, hs⟩
  · rw [count_two hlook h, hs]
    constructor
    · omega
    · intro hnot
      by_contra hlt
      exact hnot ⟨by omega, fun i hi hik => by omega⟩
  · rw [count_three hlook h, hs]
    by_cases h₁ : continues (byte 1)
    · rw [if_pos h₁]
      constructor
      · omega
      · intro hnot
        by_contra hlt
        refine hnot ⟨by omega, fun i hi hik => ?_⟩
        obtain rfl : i = 1 := by omega
        exact h₁
    · rw [if_neg h₁]
      constructor
      · rintro hle ⟨_, hall⟩
        exact h₁ (hall 1 (by omega) (by omega))
      · intro hnot
        by_contra hlt
        exact hnot ⟨by omega, fun i hi hik => by omega⟩
  · rw [count_four hlook h, hs]
    by_cases h₁ : continues (byte 1)
    · rw [if_pos h₁]
      by_cases h₂ : continues (byte 2)
      · rw [if_pos h₂]
        constructor
        · omega
        · intro hnot
          by_contra hlt
          refine hnot ⟨by omega, fun i hi hik => ?_⟩
          obtain rfl | rfl : i = 1 ∨ i = 2 := by omega
          · exact h₁
          · exact h₂
      · rw [if_neg h₂]
        constructor
        · rintro hle ⟨_, hall⟩
          exact h₂ (hall 2 (by omega) (by omega))
        · intro hnot
          by_contra hlt
          refine hnot ⟨by omega, fun i hi hik => ?_⟩
          obtain rfl : i = 1 := by omega
          exact h₁
    · rw [if_neg h₁]
      constructor
      · rintro hle ⟨_, hall⟩
        exact h₁ (hall 1 (by omega) (by omega))
      · intro hnot
        by_contra hlt
        exact hnot ⟨by omega, fun i hi hik => by omega⟩
  · rw [decodeNonAscii_other h₂ h₃ h₄, hs]
    constructor
    · omega
    · intro _
      exact hk

/-! ## One character -/

theorem byte_eq_ofNat {b : UInt8} (h : b.toNat = n) (hn : n < 256) : b = UInt8.ofNat n := by
  rw [← UInt8.toNat_inj, h, UInt8.toNat_ofNat', Nat.mod_eq_of_lt hn]

theorem bytes_two (h₁ : 0x7F < c.toNat) (h₂ : c.toNat ≤ 0x7FF) :
    String.utf8EncodeChar c =
      [UInt8.ofNat (c.toNat / 64 % 32 + 192), UInt8.ofNat (c.toNat % 64 + 128)] := by
  rw [String.utf8EncodeChar]
  exact (if_neg (Nat.not_le.2 h₁)).trans (if_pos h₂)

theorem bytes_three (h₁ : 0x7FF < c.toNat) (h₂ : c.toNat ≤ 0xFFFF) :
    String.utf8EncodeChar c =
      [UInt8.ofNat (c.toNat / 4096 % 16 + 224), UInt8.ofNat (c.toNat / 64 % 64 + 128),
        UInt8.ofNat (c.toNat % 64 + 128)] := by
  rw [String.utf8EncodeChar]
  have h₀ : 0x7F < c.toNat := Nat.lt_trans (by norm_num) h₁
  exact (if_neg (Nat.not_le.2 h₀)).trans ((if_neg (Nat.not_le.2 h₁)).trans (if_pos h₂))

theorem bytes_four (h : 0xFFFF < c.toNat) :
    String.utf8EncodeChar c =
      [UInt8.ofNat (c.toNat / 262144 % 8 + 240), UInt8.ofNat (c.toNat / 4096 % 64 + 128),
        UInt8.ofNat (c.toNat / 64 % 64 + 128), UInt8.ofNat (c.toNat % 64 + 128)] := by
  rw [String.utf8EncodeChar]
  have h₁ : 0x7FF < c.toNat := Nat.lt_trans (by norm_num) h
  have h₀ : 0x7F < c.toNat := Nat.lt_trans (by norm_num) h₁
  exact (if_neg (Nat.not_le.2 h₀)).trans
    ((if_neg (Nat.not_le.2 h₁)).trans (if_neg (Nat.not_le.2 h)))

theorem toNat_lt (c : Char) : c.toNat < 0x110000 ∧ (c.toNat < 0xD800 ∨ 0xDFFF < c.toNat) := by
  have hvalid : c.toNat.isValidChar := c.valid
  rw [Nat.isValidChar] at hvalid
  omega

theorem toNat_ofNat (h : n.isValidChar) : (Char.ofNat n).toNat = n := by
  rw [Char.ofNat, dif_pos h]
  rfl

theorem toNat_lead (hn : n < 256) {b : UInt8} (h : UInt8.ofNat n = b) : b.toNat = n := by
  rw [← h, UInt8.toNat_ofNat', Nat.mod_eq_of_lt hn]

theorem continuation {b : UInt8} (h : UInt8.ofNat (n % 64 + 128) = b) :
    ¬¬continues b = true ∧ b.toNat % 64 = n % 64 := by
  have hb := toNat_lead (by omega) h
  have hcontinues : continues b = true := (continues_iff b).mpr (by omega)
  exact ⟨not_not_intro hcontinues, by omega⟩

theorem decodeNonAscii_char_two (hlook : 4 ≤ look) (h₁ : 0x7F < c.toNat) (h₂ : c.toNat ≤ 0x7FF)
    (hbytes : String.utf8EncodeChar c =
      (List.range (String.utf8EncodeChar c).length).map byte) :
    decodeNonAscii look byte =
      (some (c.toNat, (String.utf8EncodeChar c).length), (String.utf8EncodeChar c).length) := by
  rw [bytes_two h₁ h₂] at hbytes ⊢
  change _ = [byte 0, byte 1] at hbytes
  rw [List.cons.injEq, List.cons.injEq] at hbytes
  obtain ⟨h0, h1, -⟩ := hbytes
  have hlead := toNat_lead (by omega) h0
  obtain ⟨hnext, hlow⟩ := continuation h1
  rw [decodeNonAscii_two hlook (by omega), if_neg hnext]
  have hcode : (byte 0).toNat % 32 * 64 + (byte 1).toNat % 64 = c.toNat := by omega
  dsimp only
  rw [hcode, if_neg (by omega)]
  rfl

theorem decodeNonAscii_char_three (hlook : 4 ≤ look) (h₁ : 0x7FF < c.toNat) (h₂ : c.toNat ≤ 0xFFFF)
    (hbytes : String.utf8EncodeChar c =
      (List.range (String.utf8EncodeChar c).length).map byte) :
    decodeNonAscii look byte =
      (some (c.toNat, (String.utf8EncodeChar c).length), (String.utf8EncodeChar c).length) := by
  obtain ⟨-, hsurrogate⟩ := toNat_lt c
  rw [bytes_three h₁ h₂] at hbytes ⊢
  change _ = [byte 0, byte 1, byte 2] at hbytes
  rw [List.cons.injEq, List.cons.injEq, List.cons.injEq] at hbytes
  obtain ⟨h0, h1, h2, -⟩ := hbytes
  have hlead := toNat_lead (by omega) h0
  obtain ⟨hnext, hmiddle⟩ := continuation h1
  obtain ⟨hnext', hlow⟩ := continuation h2
  rw [decodeNonAscii_three hlook (by omega), if_neg hnext, if_neg hnext']
  have hcode : (byte 0).toNat % 16 * 4096 +
      ((byte 1).toNat % 64 * 64 + (byte 2).toNat % 64) = c.toNat := by
    rw [hmiddle, hlow, hlead]
    omega
  dsimp only
  rw [hcode, if_neg (by omega)]
  rfl

theorem decodeNonAscii_char_four (hlook : 4 ≤ look) (h₁ : 0xFFFF < c.toNat)
    (hbytes : String.utf8EncodeChar c =
      (List.range (String.utf8EncodeChar c).length).map byte) :
    decodeNonAscii look byte =
      (some (c.toNat, (String.utf8EncodeChar c).length), (String.utf8EncodeChar c).length) := by
  obtain ⟨hlt, -⟩ := toNat_lt c
  rw [bytes_four h₁] at hbytes ⊢
  change _ = [byte 0, byte 1, byte 2, byte 3] at hbytes
  rw [List.cons.injEq, List.cons.injEq, List.cons.injEq, List.cons.injEq] at hbytes
  obtain ⟨h0, h1, h2, h3, -⟩ := hbytes
  have hlead := toNat_lead (by omega) h0
  obtain ⟨hnext, hhigh⟩ := continuation h1
  obtain ⟨hnext', hmiddle⟩ := continuation h2
  obtain ⟨hnext'', hlow⟩ := continuation h3
  rw [decodeNonAscii_four hlook (by omega), if_neg hnext, if_neg hnext', if_neg hnext'']
  have hcode : (byte 0).toNat % 8 * 262144 + ((byte 1).toNat % 64 * 4096 +
      ((byte 2).toNat % 64 * 64 + (byte 3).toNat % 64)) = c.toNat := by
    rw [hhigh, hmiddle, hlow, hlead]
    omega
  dsimp only
  rw [hcode, if_neg (by omega)]
  rfl

theorem decodeNonAscii_char (hlook : 4 ≤ look) (hc : 0x7F < c.toNat)
    (hbytes : String.utf8EncodeChar c =
      (List.range (String.utf8EncodeChar c).length).map byte) :
    decodeNonAscii look byte =
      (some (c.toNat, (String.utf8EncodeChar c).length), (String.utf8EncodeChar c).length) := by
  by_cases h₂ : c.toNat ≤ 0x7FF
  · exact decodeNonAscii_char_two hlook hc h₂ hbytes
  · by_cases h₃ : c.toNat ≤ 0xFFFF
    · exact decodeNonAscii_char_three hlook (Nat.not_le.mp h₂) h₃ hbytes
    · exact decodeNonAscii_char_four hlook (Nat.not_le.mp h₃) hbytes

theorem char_of_decode (hlook : 4 ≤ look) {codePoint length count : ℕ}
    (h : decodeNonAscii look byte = (some (codePoint, length), count)) :
    ∃ c : Char, c.toNat = codePoint ∧ 0x7F < codePoint ∧ count = length ∧
      length = (String.utf8EncodeChar c).length ∧
      String.utf8EncodeChar c = (List.range length).map byte := by
  rcases leading_cases (byte 0) with ⟨hlead, -⟩ | ⟨hlead, -⟩ | ⟨hlead, -⟩ | ⟨⟨h₂, h₃, h₄⟩, -⟩
  · rw [decodeNonAscii_two hlook hlead] at h
    dsimp only at h
    split_ifs at h with hcont hrange
    · cases h
    · rw [continues_iff] at hcont
      simp only [Prod.mk.injEq, Option.some.injEq] at h
      obtain ⟨⟨rfl, rfl⟩, rfl⟩ := h
      have hc := toNat_ofNat (n := (byte 0).toNat % 32 * 64 + (byte 1).toNat % 64)
        (by rw [Nat.isValidChar]; omega)
      have hseq := bytes_two (c := Char.ofNat _) (by rw [hc]; omega) (by rw [hc]; omega)
      rw [hc] at hseq
      rw [← byte_eq_ofNat (b := byte 0) (by omega) (by omega),
        ← byte_eq_ofNat (b := byte 1) (by omega) (by omega)] at hseq
      refine ⟨Char.ofNat _, hc, by omega, rfl, ?_, hseq⟩
      rw [hseq]
      rfl
    · cases h
  · rw [decodeNonAscii_three hlook hlead] at h
    dsimp only at h
    split_ifs at h with hcont₁ hcont₂ hrange
    · cases h
    · rw [continues_iff] at hcont₁ hcont₂
      simp only [Prod.mk.injEq, Option.some.injEq] at h
      obtain ⟨⟨rfl, rfl⟩, rfl⟩ := h
      have hc := toNat_ofNat (n := (byte 0).toNat % 16 * 4096 +
        ((byte 1).toNat % 64 * 64 + (byte 2).toNat % 64)) (by rw [Nat.isValidChar]; omega)
      have hseq := bytes_three (c := Char.ofNat _) (by rw [hc]; omega) (by rw [hc]; omega)
      rw [hc] at hseq
      rw [← byte_eq_ofNat (b := byte 0) (by omega) (by omega),
        ← byte_eq_ofNat (b := byte 1) (by omega) (by omega),
        ← byte_eq_ofNat (b := byte 2) (by omega) (by omega)] at hseq
      refine ⟨Char.ofNat _, hc, by omega, rfl, ?_, hseq⟩
      rw [hseq]
      rfl
    · cases h
    · cases h
  · rw [decodeNonAscii_four hlook hlead] at h
    dsimp only at h
    split_ifs at h with hcont₁ hcont₂ hcont₃ hrange
    · cases h
    · rw [continues_iff] at hcont₁ hcont₂ hcont₃
      simp only [Prod.mk.injEq, Option.some.injEq] at h
      obtain ⟨⟨rfl, rfl⟩, rfl⟩ := h
      have hc := toNat_ofNat (n := (byte 0).toNat % 8 * 262144 + ((byte 1).toNat % 64 * 4096 +
        ((byte 2).toNat % 64 * 64 + (byte 3).toNat % 64))) (by rw [Nat.isValidChar]; omega)
      have hseq := bytes_four (c := Char.ofNat _) (by rw [hc]; omega)
      rw [hc] at hseq
      rw [← byte_eq_ofNat (b := byte 0) (by omega) (by omega),
        ← byte_eq_ofNat (b := byte 1) (by omega) (by omega),
        ← byte_eq_ofNat (b := byte 2) (by omega) (by omega),
        ← byte_eq_ofNat (b := byte 3) (by omega) (by omega)] at hseq
      refine ⟨Char.ofNat _, hc, by omega, rfl, ?_, hseq⟩
      rw [hseq]
      rfl
    · cases h
    · cases h
    · cases h
  · rw [decodeNonAscii_other h₂ h₃ h₄] at h
    cases h

end

/-! ## The search for bytes that are not ASCII -/

def isAscii (text : List UInt8) : Prop := ∀ b ∈ text, b < 0x80

variable {input : Input}

theorem byte_of_lt {i : ℕ} (h : i < input.text.length) : input.byte i = input.text[i] := by
  rw [Input.byte, List.getD_eq_getElem?_getD, List.getElem?_eq_getElem h, Option.getD_some]

theorem isAscii_iff : isAscii input.text ↔ ∀ i < input.text.length, input.byte i < 0x80 := by
  constructor
  · intro h i hi
    rw [byte_of_lt hi]
    exact h _ (List.getElem_mem hi)
  · intro h b hb
    obtain ⟨i, hi, rfl⟩ := List.getElem_of_mem hb
    have hi' := h i hi
    rwa [byte_of_lt hi] at hi'

theorem highBit_iff : ∀ b : UInt8, b &&& 0x80 ≠ 0 ↔ 0x80 ≤ b := forall_byte (by decide +kernel)

theorem checkWords_spec (input : Input) (fuel pos : ℕ) :
    (∀ i ∈ (checkWords input fuel pos).2.2, i < input.text.length) ∧
      ((checkWords input fuel pos).1 = true →
        ∀ i, pos ≤ i → i < (checkWords input fuel pos).2.1 → input.byte i < 0x80) ∧
      ((checkWords input fuel pos).1 = false → ∃ i < input.text.length, 0x80 ≤ input.byte i) := by
  induction fuel generalizing pos with
  | zero =>
      refine ⟨by simp [checkWords], ?_, by simp [checkWords]⟩
      intro _ i h₁ h₂
      exact absurd h₂ (Nat.not_lt.2 h₁)
  | succ fuel ih =>
      rw [checkWords]
      by_cases hlt : pos + 9 < input.text.length
      · rw [if_pos hlt]
        have hword : ∀ i ∈ List.range' pos 8, i < input.text.length := by
          intro i hi
          rw [List.mem_range'_1] at hi
          omega
        by_cases hany : (List.range' pos 8).any (fun i => input.byte i &&& 0x80 ≠ 0)
        · rw [if_pos hany]
          refine ⟨hword, by simp, ?_⟩
          intro _
          obtain ⟨i, hi, hbit⟩ := List.any_eq_true.1 hany
          exact ⟨i, hword i hi, (highBit_iff _).1 (by simpa using hbit)⟩
        · rw [if_neg hany]
          obtain ⟨hreads, hascii, hother⟩ := ih (pos + 8)
          refine ⟨?_, ?_, hother⟩
          · intro i hi
            rcases List.mem_append.1 hi with hi | hi
            · exact hword i hi
            · exact hreads i hi
          · intro htrue i h₁ h₂
            by_cases hi : i < pos + 8
            · rw [← UInt8.not_le, ← highBit_iff]
              intro hbit
              apply hany
              exact List.any_eq_true.2
                ⟨i, List.mem_range'_1.2 ⟨h₁, hi⟩, by simpa using hbit⟩
            · exact hascii htrue i (Nat.not_lt.1 hi) h₂
      · rw [if_neg hlt]
        refine ⟨by simp, ?_, by simp⟩
        intro _ i h₁ h₂
        exact absurd h₂ (Nat.not_lt.2 h₁)

theorem checkTail_spec (input : Input) (fuel pos : ℕ) (hfuel : input.text.length ≤ pos + fuel) :
    (∀ i ∈ (checkTail input fuel pos).2, i < input.text.length) ∧
      ((checkTail input fuel pos).1 = true ↔
        ∀ i, pos ≤ i → i < input.text.length → input.byte i < 0x80) := by
  induction fuel generalizing pos with
  | zero =>
      refine ⟨by simp [checkTail], ?_⟩
      simp only [checkTail, true_iff]
      intro i h₁ h₂
      omega
  | succ fuel ih =>
      rw [checkTail]
      by_cases hlt : pos < input.text.length
      · rw [if_pos hlt]
        by_cases hbyte : 0x80 ≤ input.byte pos
        · rw [if_pos hbyte]
          refine ⟨by simpa using hlt, ?_⟩
          simp only [Bool.false_eq_true, false_iff]
          intro h
          exact UInt8.not_le.2 (h pos (le_refl pos) hlt) hbyte
        · rw [if_neg hbyte]
          obtain ⟨hreads, hascii⟩ := ih (pos + 1) (by omega)
          refine ⟨by simpa using ⟨hlt, hreads⟩, hascii.trans ?_⟩
          constructor
          · intro h i h₁ h₂
            rcases Nat.eq_or_lt_of_le h₁ with rfl | h₁
            · exact UInt8.not_le.1 hbyte
            · exact h i h₁ h₂
          · intro h i h₁ h₂
            exact h i (by omega) h₂
      · rw [if_neg hlt]
        refine ⟨by simp, ?_⟩
        simp only [true_iff]
        intro i h₁ h₂
        omega

theorem isAllAscii_reads : ∀ i ∈ (isAllAscii input).2, i < input.text.length := by
  intro i hi
  have hwords := (checkWords_spec input input.text.length 0).1
  rw [isAllAscii] at hi
  dsimp only at hi
  split_ifs at hi
  · rcases List.mem_append.1 hi with hi | hi
    · exact hwords i hi
    · exact (checkTail_spec input _ _ (Nat.le_add_left _ _)).1 i hi
  · exact hwords i hi

theorem isAllAscii_iff : (isAllAscii input).1 = true ↔ isAscii input.text := by
  obtain ⟨-, hascii, hother⟩ := checkWords_spec input input.text.length 0
  rw [isAllAscii, isAscii_iff]
  dsimp only
  split_ifs with hwords
  · refine ((checkTail_spec input _ _ (Nat.le_add_left _ _)).2).trans ?_
    constructor
    · intro h i hi
      by_cases hpos : i < (checkWords input input.text.length 0).2.1
      · exact hascii hwords i (Nat.zero_le i) hpos
      · exact h i (Nat.not_lt.1 hpos) hi
    · intro h i _ hi
      exact h i hi
  · obtain ⟨i, hi, hbyte⟩ := hother (by simpa using hwords)
    simp only [false_iff]
    intro h
    exact UInt8.not_le.2 (h i hi) hbyte

/-! ## Well-formed texts -/

/-- A label in UTF-8. -/
def utf8 (label : List Char) : List UInt8 := label.flatMap String.utf8EncodeChar

@[simp] theorem utf8_nil : utf8 [] = [] := rfl

@[simp] theorem utf8_append (label label' : List Char) :
    utf8 (label ++ label') = utf8 label ++ utf8 label' := List.flatMap_append

@[simp] theorem utf8_singleton (c : Char) : utf8 [c] = String.utf8EncodeChar c := by
  rw [utf8, List.flatMap_singleton]

theorem utf8_cons (c : Char) (label : List Char) :
    utf8 (c :: label) = String.utf8EncodeChar c ++ utf8 label := rfl

theorem byte_one (h : c.toNat ≤ 0x7F) :
    String.utf8EncodeChar c = [UInt8.ofNat c.toNat] := by
  rw [String.utf8EncodeChar]
  exact if_pos h

theorem sequence_pos (c : Char) : 0 < (String.utf8EncodeChar c).length :=
  List.length_pos_of_ne_nil String.utf8EncodeChar_ne_nil

theorem length_le_utf8 (label : List Char) : label.length ≤ (utf8 label).length := by
  induction label with
  | nil => exact le_refl 0
  | cons c label ih =>
      have hpos := sequence_pos c
      rw [utf8_cons, List.length_append, List.length_cons]
      omega

theorem exists_longest (text : List UInt8) :
    ∃ label rest, text = utf8 label ++ rest ∧ ∀ c, ¬String.utf8EncodeChar c <+: rest := by
  induction hlen : text.length using Nat.strong_induction_on generalizing text with
  | _ n ih =>
      by_cases hnext : ∃ c, String.utf8EncodeChar c <+: text
      · obtain ⟨c, rest, rfl⟩ := hnext
        have hpos := sequence_pos c
        obtain ⟨label, rest', hrest, hmax⟩ :=
          ih rest.length (by rw [← hlen, List.length_append]; omega) rest rfl
        refine ⟨c :: label, rest', ?_, hmax⟩
        rw [hrest, utf8_cons, List.append_assoc]
      · exact ⟨[], text, rfl, not_exists.1 hnext⟩

/-- The ASCII characters of a label. -/
def asciiChars (label : List Char) : List Char := label.filter (fun c => c.toNat < 0x80)

/-- The code points of a label. -/
def codePoints (label : List Char) : List ℕ := label.map Char.toNat

/-! ## The loop over the input -/

/-- The variables when a label has been decoded. -/
def decodedTo (reads : List ℕ) (label : List Char) : Buffers where
  charPointer := (utf8 label).length
  output := acePrefix ++ (asciiChars label).map (fun c => UInt8.ofNat c.toNat)
  all := codePoints label
  nonBasic := (codePoints label).filter (0x80 ≤ ·)
  reads := reads ++ List.range (utf8 label).length

theorem buffers_eq (reads : List ℕ) : buffers reads = decodedTo reads [] := by
  rw [buffers, decodedTo, utf8_nil, List.length_nil, List.range_zero, List.append_nil]
  rfl

theorem four_le_lookahead {pos : ℕ} (hpos : pos < input.text.length)
    (hlen : input.text.length ≤ 62) : 4 ≤ lookahead input pos := by
  rw [lookahead]
  omega

theorem byte_append {rest : List UInt8} (h : input.text = utf8 label ++ rest)
    {i : ℕ} (hi : i < rest.length) : input.byte ((utf8 label).length + i) = rest[i] := by
  have hlt : (utf8 label).length + i < input.text.length := by
    rw [h, List.length_append]
    omega
  rw [byte_of_lt hlt]
  simp only [h, List.getElem_append_right' (utf8 label) hi]
  congr 1
  omega

theorem map_byte_eq {seq rest : List UInt8} (h : input.text = utf8 label ++ (seq ++ rest)) :
    seq = (List.range seq.length).map (fun i => input.byte ((utf8 label).length + i)) := by
  apply List.ext_getElem
  · rw [List.length_map, List.length_range]
  · intro i hi _
    rw [List.getElem_map, List.getElem_range,
      byte_append h (by rw [List.length_append]; omega), List.getElem_append_left hi]

theorem range_append (reads : List ℕ) (n k : ℕ) :
    reads ++ List.range n ++ List.range' n k = reads ++ List.range (n + k) := by
  have hrange := List.range'_append_1 (s := 0) (m := n) (n := k)
  rw [Nat.zero_add] at hrange
  rw [List.append_assoc, List.range_eq_range', List.range_eq_range', hrange]

theorem decodeStep_ascii {c : UInt8} (hbyte : input.byte b.charPointer = c) (hc : ¬0x80 ≤ c) :
    decodeStep input b =
      .ok { b with
        charPointer := b.charPointer + 1
        output := b.output ++ [c]
        all := b.all ++ [c.toNat]
        reads := b.reads ++ [b.charPointer] } := by
  subst hbyte
  rw [decodeStep]
  exact if_neg hc

theorem decodeStep_codePoint {codePoint length count : ℕ} (hbyte : 0x80 ≤ input.byte b.charPointer)
    (hdecode : decodeNonAscii (lookahead input b.charPointer)
      (fun i => input.byte (b.charPointer + i)) = (some (codePoint, length), count)) :
    decodeStep input b =
      .ok { b with
        charPointer := b.charPointer + length
        all := b.all ++ [codePoint]
        nonBasic := b.nonBasic ++ [codePoint]
        reads := b.reads ++ List.range' b.charPointer count } := by
  simp only [decodeStep, hdecode]
  exact if_pos hbyte

theorem decodeStep_invalid {count : ℕ} (hbyte : 0x80 ≤ input.byte b.charPointer)
    (hdecode : decodeNonAscii (lookahead input b.charPointer)
      (fun i => input.byte (b.charPointer + i)) = (none, count)) :
    decodeStep input b = .error { b with reads := b.reads ++ List.range' b.charPointer count } := by
  simp only [decodeStep, hdecode]
  exact if_pos hbyte

theorem decodedTo_ascii (reads : List ℕ) (label : List Char) (hc : c.toNat ≤ 0x7F) :
    decodedTo reads (label ++ [c]) =
      { decodedTo reads label with
        charPointer := (utf8 label).length + 1
        output := (decodedTo reads label).output ++ [UInt8.ofNat c.toNat]
        all := codePoints label ++ [c.toNat]
        reads := reads ++ List.range (utf8 label).length ++ [(utf8 label).length] } := by
  have hlt : c.toNat < 0x80 := Nat.lt_succ_of_le hc
  simp [decodedTo, byte_one hc, asciiChars, codePoints, List.filter_append, hlt, List.range_succ]

theorem decodedTo_codePoint (reads : List ℕ) (label : List Char) (hc : 0x7F < c.toNat) :
    decodedTo reads (label ++ [c]) =
      { decodedTo reads label with
        charPointer := (utf8 label).length + (String.utf8EncodeChar c).length
        all := codePoints label ++ [c.toNat]
        nonBasic := (codePoints label).filter (0x80 ≤ ·) ++ [c.toNat]
        reads := reads ++ List.range (utf8 label).length ++
          List.range' (utf8 label).length (String.utf8EncodeChar c).length } := by
  have hle : 0x80 ≤ c.toNat := hc
  rw [range_append]
  simp [decodedTo, asciiChars, codePoints, List.filter_append, hle]

theorem toNat_ofNat_ascii (h : n ≤ 0x7F) : (UInt8.ofNat n).toNat = n := by
  rw [UInt8.toNat_ofNat', Nat.mod_eq_of_lt (by omega)]

theorem ascii_iff (b : UInt8) : ¬0x80 ≤ b ↔ b.toNat ≤ 0x7F := by
  rw [UInt8.le_iff_toNat_le]
  exact Nat.not_le.trans Nat.lt_succ_iff

/-- The first byte of a sequence is ASCII only if the character is. -/
theorem first_byte {byte : ℕ → UInt8} (hc : 0x7F < c.toNat)
    (hseq : String.utf8EncodeChar c = (List.range (String.utf8EncodeChar c).length).map byte) :
    0x80 ≤ byte 0 := by
  have hdecode := decodeNonAscii_char (le_refl 4) hc hseq
  rw [← not_not (a := 0x80 ≤ byte 0), ascii_iff]
  intro hascii
  rw [decodeNonAscii_other (by omega) (by omega) (by omega)] at hdecode
  cases hdecode

theorem decodeStep_char {rest : List UInt8} (reads : List ℕ)
    (htext : input.text = utf8 label ++ (String.utf8EncodeChar c ++ rest))
    (hlen : input.text.length ≤ 62) :
    decodeStep input (decodedTo reads label) = .ok (decodedTo reads (label ++ [c])) := by
  have hseq := map_byte_eq htext
  have hpos : (utf8 label).length < input.text.length := by
    have := sequence_pos c
    rw [htext, List.length_append, List.length_append]
    omega
  by_cases hc : c.toNat ≤ 0x7F
  · have hbyte : input.byte (decodedTo reads label).charPointer = UInt8.ofNat c.toNat := by
      rw [byte_one hc] at hseq
      exact (List.singleton_inj.1 hseq).symm
    have hnat := toNat_ofNat_ascii hc
    rw [decodeStep_ascii hbyte (by rw [ascii_iff, hnat]; exact hc), decodedTo_ascii reads label hc,
      hnat]
    rfl
  · have hc' : 0x7F < c.toNat := Nat.not_le.1 hc
    have hbyte : 0x80 ≤ input.byte ((utf8 label).length + 0) := first_byte hc' hseq
    rw [Nat.add_zero] at hbyte
    have hdecode := decodeNonAscii_char (four_le_lookahead hpos hlen) hc' hseq
    have hstep := decodeStep_codePoint (b := decodedTo reads label) hbyte hdecode
    rw [hstep, decodedTo_codePoint reads label hc']
    rfl

theorem decodeLoop_of_ok {fuel : ℕ} {b b' : Buffers} (hpos : b.charPointer < input.text.length)
    (h : decodeStep input b = .ok b') :
    decodeLoop input (fuel + 1) b = decodeLoop input fuel b' := by
  rw [decodeLoop, if_pos hpos, h]

theorem decodeLoop_of_error {fuel : ℕ} {b b' : Buffers} (hpos : b.charPointer < input.text.length)
    (h : decodeStep input b = .error b') : decodeLoop input (fuel + 1) b = .error b' := by
  rw [decodeLoop, if_pos hpos, h]

theorem decodeLoop_of_end {fuel : ℕ} (hpos : ¬b.charPointer < input.text.length) :
    decodeLoop input fuel b = .ok b := by
  cases fuel with
  | zero => rfl
  | succ fuel => rw [decodeLoop, if_neg hpos]

theorem decodeLoop_label (reads : List ℕ) (label label' : List Char) (rest : List UInt8)
    (fuel : ℕ) (htext : input.text = utf8 label ++ (utf8 label' ++ rest))
    (hlen : input.text.length ≤ 62) :
    decodeLoop input (label'.length + fuel) (decodedTo reads label) =
      decodeLoop input fuel (decodedTo reads (label ++ label')) := by
  induction label' generalizing label with
  | nil => rw [List.length_nil, Nat.zero_add, List.append_nil]
  | cons c label' ih =>
      have htext' : input.text = utf8 label ++ (String.utf8EncodeChar c ++ (utf8 label' ++ rest)) := by
        rw [htext, utf8_cons, List.append_assoc]
      have hpos : (decodedTo reads label).charPointer < input.text.length := by
        have := sequence_pos c
        rw [htext', List.length_append, List.length_append]
        exact Nat.lt_add_of_pos_right (by omega)
      rw [List.length_cons, Nat.add_right_comm,
        decodeLoop_of_ok hpos (decodeStep_char reads htext' hlen), ih, List.append_assoc,
        List.singleton_append]
      rw [htext', utf8_append, utf8_singleton, List.append_assoc]

theorem decodeLoop_utf8 (reads : List ℕ) (htext : input.text = utf8 label)
    (hlen : input.text.length ≤ 62) :
    decodeLoop input input.text.length (buffers reads) = .ok (decodedTo reads label) := by
  obtain ⟨fuel, hfuel⟩ : ∃ fuel, input.text.length = label.length + fuel :=
    Nat.exists_eq_add_of_le (htext ▸ length_le_utf8 label)
  have hrun := decodeLoop_label reads [] label [] fuel
    (by rw [htext, utf8_nil, List.nil_append, List.append_nil]) hlen
  rw [hfuel, buffers_eq, hrun, List.nil_append]
  apply decodeLoop_of_end
  rw [htext]
  exact Nat.lt_irrefl _

/-! ## Where a text stops to be well-formed -/

/-- The text ends inside a sequence. -/
def CutOff (text : List UInt8) : Prop :=
  ∃ label lead tail, text = utf8 label ++ lead :: tail ∧ tail.length + 1 < sequenceLength lead ∧
    ∀ b ∈ tail, continues b = true

section

variable {label : List Char} {lead : UInt8} {tail : List UInt8}

/-- The sequence behind a well-formed part. -/
def sequenceAt (input : Input) (pos : ℕ) : Option (ℕ × ℕ) × ℕ :=
  decodeNonAscii (lookahead input pos) (fun i => input.byte (pos + i))

theorem pos_lt (htext : input.text = utf8 label ++ lead :: tail) :
    (utf8 label).length < input.text.length := by
  rw [htext, List.length_append]
  exact Nat.lt_add_of_pos_right (Nat.succ_pos _)

theorem byte_lead (htext : input.text = utf8 label ++ lead :: tail) :
    input.byte (utf8 label).length = lead :=
  byte_append (i := 0) htext (Nat.succ_pos _)

theorem decodeLoop_at (reads : List ℕ) (htext : input.text = utf8 label ++ lead :: tail)
    (hlen : input.text.length ≤ 62) :
    ∃ fuel, decodeLoop input input.text.length (buffers reads) =
      decodeLoop input (fuel + 1) (decodedTo reads label) := by
  have hlt : label.length < input.text.length :=
    Nat.lt_of_le_of_lt (length_le_utf8 label) (pos_lt htext)
  obtain ⟨fuel, hfuel⟩ := Nat.exists_eq_add_of_lt hlt
  refine ⟨fuel, ?_⟩
  have hrun := decodeLoop_label reads [] label (lead :: tail) (fuel + 1)
    (by rw [htext, utf8_nil, List.nil_append]) hlen
  rw [hfuel, buffers_eq, Nat.add_assoc, hrun, List.nil_append]

theorem decodeLoop_invalid (reads : List ℕ) (htext : input.text = utf8 label ++ lead :: tail)
    (hlen : input.text.length ≤ 62) (hlead : 0x80 ≤ lead)
    (hnone : (sequenceAt input (utf8 label).length).1 = none) :
    decodeLoop input input.text.length (buffers reads) =
      .error { decodedTo reads label with
        reads := reads ++
          List.range ((utf8 label).length + (sequenceAt input (utf8 label).length).2) } := by
  obtain ⟨fuel, hfuel⟩ := decodeLoop_at reads htext hlen
  rw [hfuel, ← range_append]
  apply decodeLoop_of_error (pos_lt htext)
  apply decodeStep_invalid
  · rw [← byte_lead htext] at hlead
    exact hlead
  · exact Prod.ext hnone rfl

theorem decodeLoop_past (reads : List ℕ) (htext : input.text = utf8 label ++ lead :: tail)
    (hlen : input.text.length ≤ 62) (hlead : 0x80 ≤ lead) {codePoint length : ℕ}
    (hsome : (sequenceAt input (utf8 label).length).1 = some (codePoint, length))
    (hpast : tail.length + 1 < length) :
    ∃ b, decodeLoop input input.text.length (buffers reads) = .ok b ∧
      b.reads = reads ++
        List.range ((utf8 label).length + (sequenceAt input (utf8 label).length).2) := by
  obtain ⟨fuel, hfuel⟩ := decodeLoop_at reads htext hlen
  have hbyte : 0x80 ≤ input.byte (decodedTo reads label).charPointer := by
    rw [← byte_lead htext] at hlead
    exact hlead
  have hresult : sequenceAt input (utf8 label).length =
      (some (codePoint, length), (sequenceAt input (utf8 label).length).2) := Prod.ext hsome rfl
  have hstep := decodeStep_codePoint (b := decodedTo reads label) hbyte hresult
  rw [hfuel, decodeLoop_of_ok (pos_lt htext) hstep, decodeLoop_of_end]
  · exact ⟨_, rfl, range_append _ _ _⟩
  · have hsum : input.text.length = (utf8 label).length + (tail.length + 1) := by
      rw [htext, List.length_append, List.length_cons]
    exact Nat.not_lt.2 (by rw [hsum]; exact Nat.add_le_add_left (Nat.le_of_lt hpast) _)

theorem leading_of_lt {lead : UInt8} (h : 1 < sequenceLength lead) : 0x80 ≤ lead := by
  rw [← not_not (a := 0x80 ≤ lead), ascii_iff]
  intro hascii
  rcases leading_cases lead with ⟨h, -⟩ | ⟨h, -⟩ | ⟨h, -⟩ | ⟨-, h⟩ <;> omega

theorem count_of_some (htext : input.text = utf8 label ++ lead :: tail)
    (hlen : input.text.length ≤ 62) {codePoint length : ℕ}
    (hsome : (sequenceAt input (utf8 label).length).1 = some (codePoint, length)) :
    ∃ c : Char, (sequenceAt input (utf8 label).length).2 = length ∧
      length = (String.utf8EncodeChar c).length ∧
      (length ≤ tail.length + 1 → String.utf8EncodeChar c <+: lead :: tail) := by
  have hresult : sequenceAt input (utf8 label).length =
      (some (codePoint, length), (sequenceAt input (utf8 label).length).2) := Prod.ext hsome rfl
  obtain ⟨c, -, -, hcount, hlength, hseq⟩ :=
    char_of_decode (four_le_lookahead (pos_lt htext) hlen) hresult
  refine ⟨c, hcount, hlength, ?_⟩
  intro hle
  have htake : String.utf8EncodeChar c = (lead :: tail).take length := by
    rw [hseq]
    apply List.ext_getElem
    · rw [List.length_map, List.length_range, List.length_take, List.length_cons,
        Nat.min_eq_left hle]
    · intro i hi _
      rw [List.length_map, List.length_range] at hi
      rw [List.getElem_map, List.getElem_range, List.getElem_take,
        byte_append htext (Nat.lt_of_lt_of_le hi hle)]
  rw [htake]
  exact List.take_prefix _ _

theorem cutOff_iff_count (htext : input.text = utf8 label ++ lead :: tail)
    (hlen : input.text.length ≤ 62) :
    (sequenceAt input (utf8 label).length).2 ≤ tail.length + 1 ↔
      ¬(tail.length + 1 < sequenceLength lead ∧ ∀ b ∈ tail, continues b = true) := by
  have hcount := count_le_iff (fun i => input.byte ((utf8 label).length + i))
    (four_le_lookahead (pos_lt htext) hlen) (Nat.succ_pos tail.length)
  refine hcount.trans (not_congr ?_)
  rw [Nat.add_zero, byte_lead htext]
  apply and_congr_right'
  constructor
  · intro h b hb
    obtain ⟨i, hi, rfl⟩ := List.getElem_of_mem hb
    have hbyte := h (i + 1) (Nat.succ_pos i) (Nat.succ_lt_succ hi)
    rw [byte_append htext (Nat.succ_lt_succ hi)] at hbyte
    exact hbyte
  · intro h i hpos hi
    obtain ⟨i, rfl⟩ := Nat.exists_eq_succ_of_ne_zero (Nat.ne_of_gt hpos)
    rw [byte_append htext hi]
    exact h _ (List.getElem_mem _)

end

theorem decodeLoop_cutOff (reads : List ℕ) (hlen : input.text.length ≤ 62)
    (hcut : CutOff input.text) :
    ∃ b, (decodeLoop input input.text.length (buffers reads) = .error b ∨
        decodeLoop input input.text.length (buffers reads) = .ok b) ∧
      input.text.length ∈ b.reads := by
  obtain ⟨label, lead, tail, htext, hshort, hcont⟩ := hcut
  have hlead : 0x80 ≤ lead := leading_of_lt (by omega)
  have hcount : ¬(sequenceAt input (utf8 label).length).2 ≤ tail.length + 1 := by
    rw [cutOff_iff_count htext hlen, not_not]
    exact ⟨hshort, hcont⟩
  have hmem : input.text.length ∈ reads ++
      List.range ((utf8 label).length + (sequenceAt input (utf8 label).length).2) := by
    apply List.mem_append_right
    rw [List.mem_range, htext, List.length_append, List.length_cons]
    omega
  cases hresult : (sequenceAt input (utf8 label).length).1 with
  | none => exact ⟨_, .inl (decodeLoop_invalid reads htext hlen hlead hresult), hmem⟩
  | some found =>
      obtain ⟨codePoint, length⟩ := found
      obtain ⟨c, hlength, -, -⟩ := count_of_some htext hlen hresult
      obtain ⟨b, hrun, hreads⟩ :=
        decodeLoop_past reads htext hlen hlead hresult (by omega)
      exact ⟨b, .inr hrun, hreads ▸ hmem⟩

/-- A text that is not well-formed, and does not end inside a sequence, is refused without a read
past its end. -/
theorem decodeLoop_illFormed (reads : List ℕ) (hlen : input.text.length ≤ 62)
    (hcut : ¬CutOff input.text) (hill : ¬∃ label, input.text = utf8 label) :
    ∃ label rest b, input.text = utf8 label ++ rest ∧
      (∀ c, ¬String.utf8EncodeChar c <+: rest) ∧
      decodeLoop input input.text.length (buffers reads) = .error b ∧
      b.output = (decodedTo reads label).output ∧
      ∀ i ∈ b.reads, i ∈ reads ∨ i < input.text.length := by
  obtain ⟨label, rest, htext, hmax⟩ := exists_longest input.text
  cases rest with
  | nil => exact absurd ⟨label, htext.trans (List.append_nil _)⟩ hill
  | cons lead tail =>
      have hlead : 0x80 ≤ lead := by
        rw [← not_not (a := 0x80 ≤ lead), ascii_iff]
        intro hascii
        have hnat : (Char.ofNat lead.toNat).toNat = lead.toNat :=
          toNat_ofNat (by rw [Nat.isValidChar]; omega)
        apply hmax (Char.ofNat lead.toNat)
        rw [byte_one (by omega), hnat, UInt8.ofNat_toNat]
        exact ⟨tail, rfl⟩
      have hcount : (sequenceAt input (utf8 label).length).2 ≤ tail.length + 1 := by
        rw [cutOff_iff_count htext hlen]
        rintro ⟨hshort, hcont⟩
        exact hcut ⟨label, lead, tail, htext, hshort, hcont⟩
      have hnone : (sequenceAt input (utf8 label).length).1 = none := by
        cases hresult : (sequenceAt input (utf8 label).length).1 with
        | none => rfl
        | some found =>
            obtain ⟨c, hlength, -, hpre⟩ := count_of_some htext hlen hresult
            exact absurd (hpre (by omega)) (hmax c)
      refine ⟨label, lead :: tail, _, htext, hmax,
        decodeLoop_invalid reads htext hlen hlead hnone, rfl, ?_⟩
      intro i hi
      rcases List.mem_append.1 hi with hi | hi
      · exact .inl hi
      · rw [List.mem_range] at hi
        rw [htext, List.length_append, List.length_cons]
        exact .inr (by omega)

end Webpp.Uri.Punycodes
