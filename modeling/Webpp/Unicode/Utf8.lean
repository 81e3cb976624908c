import Mathlib.Data.Nat.Bitwise
import Webpp.Foundation.UnitCode

/-!
# UTF-8

A position of an iterator is an index of the string. A read outside of the string, and a move to
before its beginning, have no result.
-/

namespace Webpp.Unicode

/-- A code point that is no surrogate. -/
def IsScalar (c : ℕ) : Prop := c < 0xD800 ∨ 0xE000 ≤ c ∧ c < 0x110000

instance : DecidablePred IsScalar := fun _ => inferInstanceAs (Decidable (_ ∨ _ ∧ _))

theorem lt_of_isScalar {c : ℕ} (h : IsScalar c) : c < 0x110000 := by
  rcases h with h | h <;> omega

namespace Utf8

open UnitCode

/-- `*pos` as a code point -/
abbrev read (s : List UInt8) (pos : ℕ) : Option ℕ := readAs UInt8.toNat s pos

/-- `unchecked::append` with the number of the units it reports -/
def append (out : List UInt8) (codePoint : ℕ) : List UInt8 × ℕ :=
  if codePoint < 0x80 then (out ++ [UInt8.ofNat codePoint], 1)
  else if codePoint < 0x800 then
    (out ++ [UInt8.ofNat (codePoint >>> 6 ||| 0xC0), UInt8.ofNat (codePoint &&& 0x3F ||| 0x80)], 2)
  else if codePoint < 0x10000 then
    (out ++ [UInt8.ofNat (codePoint >>> 12 ||| 0xE0),
      UInt8.ofNat (codePoint >>> 6 &&& 0x3F ||| 0x80),
      UInt8.ofNat (codePoint &&& 0x3F ||| 0x80)], 3)
  else
    (out ++ [UInt8.ofNat (codePoint >>> 18 ||| 0xF0),
      UInt8.ofNat (codePoint >>> 12 &&& 0x3F ||| 0x80),
      UInt8.ofNat (codePoint >>> 6 &&& 0x3F ||| 0x80),
      UInt8.ofNat (codePoint &&& 0x3F ||| 0x80)], 4)

/-- `next_code_point(pos)` with the position after it -/
def nextCodePoint (s : List UInt8) (pos : ℕ) : Option (ℕ × ℕ) := do
  let val ← read s pos
  if val &&& 0x80 = 0 then
    return (val, pos + 1)
  else if val &&& 0xE0 = 0xC0 then
    let second ← read s (pos + 1)
    return ((val &&& 0x1F) <<< 6 ||| (second &&& 0x3F), pos + 2)
  else if val &&& 0xF0 = 0xE0 then
    let second ← read s (pos + 1)
    let third ← read s (pos + 2)
    return ((val &&& 0x0F) <<< 12 ||| (second &&& 0x3F) <<< 6 ||| (third &&& 0x3F), pos + 3)
  else if val &&& 0xF8 = 0xF0 then
    let second ← read s (pos + 1)
    let third ← read s (pos + 2)
    let fourth ← read s (pos + 3)
    return ((val &&& 0x07) <<< 18 ||| (second &&& 0x3F) <<< 12 ||| (third &&& 0x3F) <<< 6 |||
      (fourth &&& 0x3F), pos + 4)
  else
    return (val, pos + 1)

/-- `next_code_point(pos, end)`, where the end is the one of the string -/
def nextCodePointUntil (s : List UInt8) (pos : ℕ) : Option (ℕ × ℕ) :=
  if pos = s.length then some (0, pos)
  else do
    let val ← read s pos
    if pos + 1 = s.length then
      return (val, pos + 1)
    else if val &&& 0x80 = 0 then
      return (val, pos + 1)
    else if val &&& 0xE0 = 0xC0 then
      let second ← read s (pos + 1)
      return ((val &&& 0x1F) <<< 6 ||| (second &&& 0x3F), pos + 2)
    else if val &&& 0xF0 = 0xE0 then
      let second ← read s (pos + 1)
      let val := (val &&& 0x0F) <<< 12 ||| (second &&& 0x3F) <<< 6
      if pos + 2 ≠ s.length then
        let third ← read s (pos + 2)
        return (val ||| (third &&& 0x3F), pos + 3)
      else
        return (val, pos + 2)
    else if val &&& 0xF8 = 0xF0 then
      let second ← read s (pos + 1)
      let val := (val &&& 0x07) <<< 18 ||| (second &&& 0x3F) <<< 12
      if pos + 2 ≠ s.length then
        let third ← read s (pos + 2)
        let val := val ||| (third &&& 0x3F) <<< 6
        if pos + 3 ≠ s.length then
          let fourth ← read s (pos + 3)
          return (val ||| (fourth &&& 0x3F), pos + 4)
        else
          return (val, pos + 3)
      else
        return (val, pos + 2)
    else
      return (val, pos + 1)

/-- `prev_code_point(pos)` with the position it moves to -/
def prevCodePoint (s : List UInt8) (pos : ℕ) : Option (ℕ × ℕ) := do
  let pos ← back pos
  let val ← read s pos
  if val >>> 6 ≠ 0b10 then
    return (val, pos)
  else
    let val := val &&& 0x3F
    let pos ← back pos
    let second ← read s pos
    if second >>> 6 ≠ 0b10 then
      return (val ||| (second &&& 0x1F) <<< 6, pos)
    else
      let val := val ||| (second &&& 0x3F) <<< 6
      let pos ← back pos
      let third ← read s pos
      if third >>> 6 ≠ 0b10 then
        return (val ||| (third &&& 0x0F) <<< 12, pos)
      else
        let val := val ||| (third &&& 0x3F) <<< 12
        let pos ← back pos
        let fourth ← read s pos
        if fourth >>> 6 ≠ 0b10 then
          return (val ||| (fourth &&& 0x07) <<< 18, pos)
        else
          return (val ||| (fourth &&& 0x3F) <<< 18, pos)

/-- `details::utf8_skip` -/
def utf8Skip : List ℕ :=
  List.replicate 192 1 ++ List.replicate 32 2 ++ List.replicate 16 3 ++ List.replicate 8 4 ++
    [5, 5, 5, 5, 6, 6, 1, 1]

def requiredLengthOf (value : ℕ) : Option ℕ := utf8Skip[value]?

/-- `unchecked::next_char` -/
def nextChar (s : List UInt8) (pos : ℕ) : Option ℕ := do
  let val ← read s pos
  let skip ← utf8Skip[val]?
  return pos + skip

/-- At most `n` units are tested, and one more is skipped if none of them begins a code point. -/
def prevCharAtMost (s : List UInt8) : ℕ → ℕ → Option ℕ
  | 0, pos => back pos
  | n + 1, pos => do
      let pos ← back pos
      let val ← read s pos
      if val &&& 0xC0 ≠ 0x80 then
        return pos
      else
        prevCharAtMost s n pos

/-- `unchecked::prev_char` -/
def prevChar (s : List UInt8) (pos : ℕ) : Option ℕ := prevCharAtMost s 5 pos

theorem read_of_lt {s : List UInt8} {pos : ℕ} (h : pos < s.length) :
    ∃ val, read s pos = some val :=
  readAs_of_lt UInt8.toNat h

/-! ## Bits -/

theorem lead_two : ∀ x < 32, (0xC0 + x) &&& 0x80 ≠ 0 ∧ (0xC0 + x) &&& 0xE0 = 0xC0 ∧
    (0xC0 + x) &&& 0x1F = x ∧ (0xC0 + x) >>> 6 ≠ 0b10 ∧ (0xC0 + x) &&& 0xC0 ≠ 0x80 ∧
    utf8Skip[0xC0 + x]? = some 2 := by
  decide +kernel

theorem lead_three : ∀ x < 16, (0xE0 + x) &&& 0x80 ≠ 0 ∧ (0xE0 + x) &&& 0xE0 ≠ 0xC0 ∧
    (0xE0 + x) &&& 0xF0 = 0xE0 ∧ (0xE0 + x) &&& 0x0F = x ∧ (0xE0 + x) >>> 6 ≠ 0b10 ∧
    (0xE0 + x) &&& 0xC0 ≠ 0x80 ∧ utf8Skip[0xE0 + x]? = some 3 := by
  decide +kernel

theorem lead_four : ∀ x < 8, (0xF0 + x) &&& 0x80 ≠ 0 ∧ (0xF0 + x) &&& 0xE0 ≠ 0xC0 ∧
    (0xF0 + x) &&& 0xF0 ≠ 0xE0 ∧ (0xF0 + x) &&& 0xF8 = 0xF0 ∧ (0xF0 + x) &&& 0x07 = x ∧
    (0xF0 + x) >>> 6 ≠ 0b10 ∧ (0xF0 + x) &&& 0xC0 ≠ 0x80 ∧ utf8Skip[0xF0 + x]? = some 4 := by
  decide +kernel

theorem single : ∀ x < 0x80, x &&& 0x80 = 0 ∧ x >>> 6 ≠ 0b10 ∧ x &&& 0xC0 ≠ 0x80 ∧
    utf8Skip[x]? = some 1 := by
  decide +kernel

/-- A unit that is not the first one. -/
theorem trail : ∀ y < 64, (0x80 + y) &&& 0x3F = y ∧ (0x80 + y) >>> 6 = 0b10 ∧
    (0x80 + y) &&& 0xC0 = 0x80 := by
  decide +kernel

theorem or_shiftLeft {b i : ℕ} (a : ℕ) (h : b < 2 ^ i) : b ||| a <<< i = a * 2 ^ i + b := by
  rw [Nat.or_comm, Nat.shiftLeft_eq, Nat.mul_comm, ← Nat.two_pow_add_eq_or_of_lt h]

theorem shiftLeft_or {b i : ℕ} (a : ℕ) (h : b < 2 ^ i) : a <<< i ||| b = a * 2 ^ i + b := by
  rw [Nat.or_comm, or_shiftLeft a h]

theorem and_mask (a i : ℕ) : a &&& (2 ^ i - 1) = a % 2 ^ i := Nat.and_two_pow_sub_one_eq_mod a i

theorem toNat_or_shiftLeft {a b i : ℕ} (h : b < 2 ^ i) (hlt : a * 2 ^ i + b < 256) :
    (UInt8.ofNat (b ||| a <<< i)).toNat = a * 2 ^ i + b := by
  rw [or_shiftLeft a h, UInt8.toNat_ofNat', Nat.mod_eq_of_lt hlt]

/-! ## Code points -/

/-- The units of a code point, of which each keeps a digit. -/
inductive Encoded (c : ℕ) : List UInt8 → Prop where
  | one {a : UInt8} (hc : c < 0x80) (ha : a.toNat = c) : Encoded c [a]
  | two {a b : UInt8} {x y : ℕ} (hc : c = x * 64 + y) (hx : x < 32) (hlow : 0x80 ≤ c)
      (hy : y < 64) (ha : a.toNat = 0xC0 + x) (hb : b.toNat = 0x80 + y) : Encoded c [a, b]
  | three {a b d : UInt8} {x y z : ℕ} (hc : c = x * 4096 + (y * 64 + z)) (hx : x < 16)
      (hlow : 0x800 ≤ c) (hy : y < 64) (hz : z < 64) (ha : a.toNat = 0xE0 + x)
      (hb : b.toNat = 0x80 + y) (hd : d.toNat = 0x80 + z) : Encoded c [a, b, d]
  | four {a b d e : UInt8} {x y z w : ℕ} (hc : c = x * 262144 + (y * 4096 + (z * 64 + w)))
      (hx : x < 8) (hlow : 0x10000 ≤ c) (hy : y < 64) (hz : z < 64) (hw : w < 64)
      (ha : a.toNat = 0xF0 + x) (hb : b.toNat = 0x80 + y) (hd : d.toNat = 0x80 + z)
      (he : e.toNat = 0x80 + w) : Encoded c [a, b, d, e]

/-- The units `append` writes. -/
def encode (c : ℕ) : List UInt8 := (append [] c).1

theorem append_eq (out : List UInt8) (c : ℕ) :
    append out c = (out ++ encode c, (encode c).length) := by
  simp only [encode, append]
  split_ifs <;> simp

theorem encode_ne_nil (c : ℕ) : encode c ≠ [] := by
  simp only [encode, append]
  split_ifs <;> simp

theorem toNat_tail (x : ℕ) : (UInt8.ofNat (x &&& 0x3F ||| 0x80)).toNat = 0x80 + x % 64 := by
  have hlt : x % 2 ^ 6 < 2 ^ 6 := Nat.mod_lt _ (by decide)
  have hand : x &&& 0x3F = x % 2 ^ 6 := and_mask x 6
  rw [hand]
  exact toNat_or_shiftLeft (a := 2) hlt (by omega)

theorem encoded_encode {c : ℕ} (h : c < 0x110000) : Encoded c (encode c) := by
  rw [encode, append]
  split_ifs with h1 h2 h3
  · apply Encoded.one h1
    rw [UInt8.toNat_ofNat', Nat.mod_eq_of_lt (by omega)]
  · have hx : c >>> 6 < 2 ^ 5 := by
      rw [Nat.shiftRight_eq_div_pow]
      omega
    apply Encoded.two (x := c >>> 6) (y := c % 64) _ hx (by omega) (by omega) _ (toNat_tail c)
    · rw [Nat.shiftRight_eq_div_pow]
      omega
    · exact toNat_or_shiftLeft (a := 6) hx (by omega)
  · have hx : c >>> 12 < 2 ^ 4 := by
      rw [Nat.shiftRight_eq_div_pow]
      omega
    apply Encoded.three (x := c >>> 12) (y := c >>> 6 % 64) (z := c % 64) _ hx (by omega)
      (by omega) (by omega) _ (toNat_tail _) (toNat_tail c)
    · rw [Nat.shiftRight_eq_div_pow, Nat.shiftRight_eq_div_pow]
      omega
    · exact toNat_or_shiftLeft (a := 14) hx (by omega)
  · have hx : c >>> 18 < 2 ^ 3 := by
      rw [Nat.shiftRight_eq_div_pow]
      omega
    apply Encoded.four (x := c >>> 18) (y := c >>> 12 % 64) (z := c >>> 6 % 64) (w := c % 64)
      _ hx (by omega) (by omega) (by omega) (by omega) _ (toNat_tail _) (toNat_tail _) (toNat_tail c)
    · rw [Nat.shiftRight_eq_div_pow, Nat.shiftRight_eq_div_pow, Nat.shiftRight_eq_div_pow]
      omega
    · exact toNat_or_shiftLeft (a := 30) hx (by omega)

/-! ## Decoders at a code point -/

theorem digits_two {x y : ℕ} (hy : y < 64) : x <<< 6 ||| y = x * 64 + y := shiftLeft_or x hy

theorem digits_three {x y z : ℕ} (hy : y < 64) (hz : z < 64) :
    x <<< 12 ||| y <<< 6 ||| z = x * 4096 + (y * 64 + z) := by
  rw [Nat.or_assoc, digits_two hz]
  exact shiftLeft_or x (by omega)

theorem digits_four {x y z w : ℕ} (hy : y < 64) (hz : z < 64) (hw : w < 64) :
    x <<< 18 ||| y <<< 12 ||| z <<< 6 ||| w = x * 262144 + (y * 4096 + (z * 64 + w)) := by
  rw [Nat.or_assoc, Nat.or_assoc, ← Nat.or_assoc (y <<< 12), digits_three hz hw]
  exact shiftLeft_or x (by omega)

theorem digits_three_back {x y z : ℕ} (hy : y < 64) (hz : z < 64) :
    z ||| y <<< 6 ||| x <<< 12 = x * 4096 + (y * 64 + z) := by
  rw [Nat.or_comm z, digits_two hz]
  exact or_shiftLeft x (by omega)

theorem digits_four_back {x y z w : ℕ} (hy : y < 64) (hz : z < 64) (hw : w < 64) :
    w ||| z <<< 6 ||| y <<< 12 ||| x <<< 18 = x * 262144 + (y * 4096 + (z * 64 + w)) := by
  rw [digits_three_back hz hw]
  exact or_shiftLeft x (by omega)

section Decoders

variable {c : ℕ} {units : List UInt8}

theorem nextCodePoint_encoded (h : Encoded c units) (before after : List UInt8) :
    nextCodePoint (before ++ (units ++ after)) before.length =
      some (c, before.length + units.length) := by
  cases h with
  | one hc ha =>
      obtain ⟨h1, -⟩ := single c hc
      simp [nextCodePoint, ha, h1]
  | @two a b x y hc hx hlow hy ha hb =>
      obtain ⟨h1, h2, hval, -⟩ := lead_two x hx
      simp [nextCodePoint, ha, hb, h1, h2, hval, trail y hy, digits_two hy, hc]
  | @three a b d x y z hc hx hlow hy hz ha hb hd =>
      obtain ⟨h1, h2, h3, hval, -⟩ := lead_three x hx
      simp [nextCodePoint, ha, hb, hd, h1, h2, h3, hval, trail y hy, trail z hz,
        digits_three hy hz, hc]
  | @four a b d e x y z w hc hx hlow hy hz hw ha hb hd he =>
      obtain ⟨h1, h2, h3, h4, hval, -⟩ := lead_four x hx
      simp [nextCodePoint, ha, hb, hd, he, h1, h2, h3, h4, hval, trail y hy, trail z hz,
        trail w hw, digits_four hy hz hw, hc]

theorem nextCodePointUntil_encoded (h : Encoded c units) (before after : List UInt8) :
    nextCodePointUntil (before ++ (units ++ after)) before.length =
      some (c, before.length + units.length) := by
  cases h with
  | one hc ha =>
      obtain ⟨h1, -⟩ := single c hc
      simp [nextCodePointUntil, ha, h1]
  | @two a b x y hc hx hlow hy ha hb =>
      obtain ⟨h1, h2, hval, -⟩ := lead_two x hx
      simp [nextCodePointUntil, ha, hb, h1, h2, hval, trail y hy, digits_two hy, hc]
  | @three a b d x y z hc hx hlow hy hz ha hb hd =>
      obtain ⟨h1, h2, h3, hval, -⟩ := lead_three x hx
      simp [nextCodePointUntil, ha, hb, hd, h1, h2, h3, hval, trail y hy, trail z hz,
        digits_three hy hz, hc]
  | @four a b d e x y z w hc hx hlow hy hz hw ha hb hd he =>
      obtain ⟨h1, h2, h3, h4, hval, -⟩ := lead_four x hx
      simp [nextCodePointUntil, ha, hb, hd, he, h1, h2, h3, h4, hval, trail y hy, trail z hz,
        trail w hw, digits_four hy hz hw, hc]

theorem prevCodePoint_encoded (h : Encoded c units) (before after : List UInt8) :
    prevCodePoint (before ++ (units ++ after)) (before.length + units.length) =
      some (c, before.length) := by
  cases h with
  | one hc ha =>
      obtain ⟨-, h1, -⟩ := single c hc
      simp [prevCodePoint, ha, h1]
  | @two a b x y hc hx hlow hy ha hb =>
      obtain ⟨-, -, hval, h1, -⟩ := lead_two x hx
      simp [prevCodePoint, ha, hb, h1, hval, trail y hy, Nat.or_comm y, digits_two hy, hc]
  | @three a b d x y z hc hx hlow hy hz ha hb hd =>
      obtain ⟨-, -, -, hval, h1, -⟩ := lead_three x hx
      have hdigits := digits_three_back (x := x) hy hz
      simp [prevCodePoint, ha, hb, hd, h1, hval, trail y hy, trail z hz, hdigits, hc]
  | @four a b d e x y z w hc hx hlow hy hz hw ha hb hd he =>
      obtain ⟨-, -, -, -, hval, h1, -⟩ := lead_four x hx
      have hdigits := digits_four_back (x := x) hy hz hw
      simp [prevCodePoint, ha, hb, hd, he, h1, hval, trail y hy, trail z hz, trail w hw, hdigits,
        hc]

theorem nextChar_encoded (h : Encoded c units) (before after : List UInt8) :
    nextChar (before ++ (units ++ after)) before.length = some (before.length + units.length) := by
  cases h with
  | one hc ha => simp [nextChar, ha, single c hc]
  | @two a b x y hc hx hlow hy ha hb => simp [nextChar, ha, lead_two x hx]
  | @three a b d x y z hc hx hlow hy hz ha hb hd => simp [nextChar, ha, lead_three x hx]
  | @four a b d e x y z w hc hx hlow hy hz hw ha hb hd he => simp [nextChar, ha, lead_four x hx]

theorem prevChar_encoded (h : Encoded c units) (before after : List UInt8) :
    prevChar (before ++ (units ++ after)) (before.length + units.length) = some before.length := by
  cases h with
  | one hc ha => simp [prevChar, prevCharAtMost, ha, single c hc]
  | @two a b x y hc hx hlow hy ha hb =>
      simp [prevChar, prevCharAtMost, ha, hb, lead_two x hx, trail y hy]
  | @three a b d x y z hc hx hlow hy hz ha hb hd =>
      simp [prevChar, prevCharAtMost, ha, hb, hd, lead_three x hx, trail y hy, trail z hz]
  | @four a b d e x y z w hc hx hlow hy hz hw ha hb hd he =>
      simp [prevChar, prevCharAtMost, ha, hb, hd, he, lead_four x hx, trail y hy, trail z hz,
        trail w hw]

end Decoders

/-! ## The bounded decoder -/

theorem nextCodePointUntil_inside {s : List UInt8} {pos : ℕ} (h : pos ≤ s.length) :
    ∃ c pos', nextCodePointUntil s pos = some (c, pos') ∧ pos ≤ pos' ∧ pos' ≤ s.length := by
  rw [nextCodePointUntil]
  by_cases hend : pos = s.length
  · rw [if_pos hend]
    exact ⟨0, pos, rfl, Nat.le_refl _, h⟩
  rw [if_neg hend]
  obtain ⟨val, hval⟩ := read_of_lt (Nat.lt_of_le_of_ne h hend)
  simp only [hval, Option.bind_eq_bind, Option.bind_some]
  by_cases hone : pos + 1 = s.length
  · rw [if_pos hone]
    exact ⟨val, pos + 1, rfl, by omega, by omega⟩
  rw [if_neg hone]
  -- There is a second unit, and the ones after it are only read if they are before the end.
  obtain ⟨second, hsecond⟩ := read_of_lt (show pos + 1 < s.length by omega)
  simp only [hsecond, Option.bind_some]
  split_ifs with h1 h2 h3 htwo h4 htwo hthree
  · exact ⟨_, _, rfl, by omega, by omega⟩
  · exact ⟨_, _, rfl, by omega, by omega⟩
  · obtain ⟨third, hthird⟩ := read_of_lt (show pos + 2 < s.length by omega)
    rw [hthird]
    exact ⟨_, _, rfl, by omega, by omega⟩
  · exact ⟨_, _, rfl, by omega, by omega⟩
  · obtain ⟨third, hthird⟩ := read_of_lt (show pos + 2 < s.length by omega)
    obtain ⟨fourth, hfourth⟩ := read_of_lt (show pos + 3 < s.length by omega)
    rw [hthird, hfourth]
    exact ⟨_, _, rfl, by omega, by omega⟩
  · obtain ⟨third, hthird⟩ := read_of_lt (show pos + 2 < s.length by omega)
    rw [hthird]
    exact ⟨_, _, rfl, by omega, by omega⟩
  · exact ⟨_, _, rfl, by omega, by omega⟩
  · exact ⟨_, _, rfl, by omega, by omega⟩

/-! ## Texts -/

/-- At the position of the code point `c`, which has `n` units, all functions move by them. -/
structure MovesBy (s : List UInt8) (pos n c : ℕ) : Prop where
  nextCodePoint : nextCodePoint s pos = some (c, pos + n)
  nextCodePointUntil : nextCodePointUntil s pos = some (c, pos + n)
  nextChar : nextChar s pos = some (pos + n)
  prevCodePoint : prevCodePoint s (pos + n) = some (c, pos)
  prevChar : prevChar s (pos + n) = some pos

theorem movesBy_encode {c : ℕ} (h : c < 0x110000) (before after : List UInt8) :
    MovesBy (before ++ (encode c ++ after)) before.length (encode c).length c := by
  have hencoded := encoded_encode h
  exact {
    nextCodePoint := nextCodePoint_encoded hencoded before after
    nextCodePointUntil := nextCodePointUntil_encoded hencoded before after
    nextChar := nextChar_encoded hencoded before after
    prevCodePoint := prevCodePoint_encoded hencoded before after
    prevChar := prevChar_encoded hencoded before after }

section Scalars

variable {cs : List ℕ} (hcs : ∀ c ∈ cs, IsScalar c)
include hcs

theorem lt_of_mem {before after : List ℕ} {c : ℕ} (h : cs = before ++ c :: after) :
    c < 0x110000 := by
  subst h
  exact lt_of_isScalar (hcs c (by simp))

theorem forwards_nextCodePoint : forwards nextCodePoint (appendAll append cs) = some cs := by
  rw [appendAll_eq append_eq]
  refine (forwards_iff encode_ne_nil (P := (· < 0x110000)) ?_ ?_).2
    (fun c hc => lt_of_isScalar (hcs c hc))
  · intro before c after hc
    exact (movesBy_encode hc _ after).nextCodePoint
  · intro before c after n hl hc
    exact absurd (lt_of_mem hcs hl) hc

theorem forwards_nextCodePointUntil :
    forwards nextCodePointUntil (appendAll append cs) = some cs := by
  rw [appendAll_eq append_eq]
  refine (forwards_iff encode_ne_nil (P := (· < 0x110000)) ?_ ?_).2
    (fun c hc => lt_of_isScalar (hcs c hc))
  · intro before c after hc
    exact (movesBy_encode hc _ after).nextCodePointUntil
  · intro before c after n hl hc
    exact absurd (lt_of_mem hcs hl) hc

theorem backwards_prevCodePoint :
    backwards prevCodePoint (appendAll append cs) = some cs.reverse := by
  rw [appendAll_eq append_eq]
  refine (backwards_iff encode_ne_nil (P := (· < 0x110000)) ?_ ?_).2
    (fun c hc => lt_of_isScalar (hcs c hc))
  · intro before c after hc
    exact (movesBy_encode hc _ after).prevCodePoint
  · intro before c after n hl hc
    exact absurd (lt_of_mem hcs hl) hc

end Scalars

/-- What is appended is decoded in both directions. All functions agree on the lengths, and the
bounded decoder stays in the string. -/
theorem append_decodes (cs : List ℕ) (hcs : ∀ c ∈ cs, IsScalar c) :
    forwards nextCodePoint (appendAll append cs) = some cs ∧
      forwards nextCodePointUntil (appendAll append cs) = some cs ∧
      backwards prevCodePoint (appendAll append cs) = some cs.reverse ∧
      (∀ before c after, cs = before ++ c :: after →
        MovesBy (appendAll append cs) (appendAll append before).length
          (append (appendAll append before) c).2 c) ∧
      ∀ s pos, pos ≤ s.length →
        ∃ c pos', nextCodePointUntil s pos = some (c, pos') ∧ pos ≤ pos' ∧ pos' ≤ s.length := by
  refine ⟨forwards_nextCodePoint hcs, forwards_nextCodePointUntil hcs,
    backwards_prevCodePoint hcs, ?_, fun s pos h => nextCodePointUntil_inside h⟩
  rintro before c after rfl
  rw [append_eq, appendAll_eq append_eq, appendAll_eq append_eq, text_append, text_cons]
  exact movesBy_encode (lt_of_mem hcs rfl) _ _

theorem append_decodes_dollar_euro :
    forwards nextCodePoint (appendAll append [0x24, 0x20AC, 0x10348]) = some [0x24, 0x20AC, 0x10348] ∧
      backwards prevCodePoint (appendAll append [0x24, 0x20AC, 0x10348]) =
        some [0x10348, 0x20AC, 0x24] := by
  have h := append_decodes [0x24, 0x20AC, 0x10348] (by decide)
  exact ⟨h.1, h.2.2.1⟩

end Utf8

end Webpp.Unicode
