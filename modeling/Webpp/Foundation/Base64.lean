import Mathlib.Data.Char
import Mathlib.Data.List.Basic
import Mathlib.Tactic.IntervalCases

/-!
# Base64

The standard encoding of bytes in base64, with padding: three bytes are encoded by four
characters. A byte is a character below 256. Decoding checks the length and the alphabet, and
gives back what was encoded.
-/

namespace Base64

/-! ## The alphabet -/

/-- The character of six bits. -/
def sextetChar (d : ℕ) : Char :=
  if d < 26 then Char.ofNat ('A'.toNat + d)
  else if d < 52 then Char.ofNat ('a'.toNat + (d - 26))
  else if d < 62 then Char.ofNat ('0'.toNat + (d - 52))
  else if d = 62 then '+'
  else '/'

/-- The six bits of a character. -/
def sextet (c : Char) : Option ℕ :=
  if 'A' ≤ c ∧ c ≤ 'Z' then some (c.toNat - 'A'.toNat)
  else if 'a' ≤ c ∧ c ≤ 'z' then some (c.toNat - 'a'.toNat + 26)
  else if '0' ≤ c ∧ c ≤ '9' then some (c.toNat - '0'.toNat + 52)
  else if c = '+' then some 62
  else if c = '/' then some 63
  else none

theorem sextet_sextetChar : ∀ d < 64, sextet (sextetChar d) = some d := by decide

/-- What holds of the alphabet holds of the character of every number. -/
theorem forall_sextetChar {P : Char → Prop} (h : ∀ d < 64, P (sextetChar d)) (d : ℕ) :
    P (sextetChar d) := by
  by_cases hd : d < 64
  · exact h d hd
  · have hlast : sextetChar d = sextetChar 63 := by
      rw [sextetChar, if_neg (by omega), if_neg (by omega), if_neg (by omega), if_neg (by omega)]
      rfl
    rw [hlast]
    exact h 63 (by norm_num)

theorem sextetChar_ne_pad : ∀ d, sextetChar d ≠ '=' :=
  forall_sextetChar (P := fun c => c ≠ '=') (by decide)

theorem sextetChar_ne_newline : ∀ d, sextetChar d ≠ '\n' :=
  forall_sextetChar (P := fun c => c ≠ '\n') (by decide)

theorem sextetChar_lt : ∀ d, (sextetChar d).toNat < 256 :=
  forall_sextetChar (P := fun c => c.toNat < 256) (by decide)

/-! ## Encoding -/

def first (a : Char) : Char := sextetChar (a.toNat / 4)

def second (a : Char) (b : ℕ) : Char := sextetChar (a.toNat % 4 * 16 + b / 16)

def third (b : Char) (c : ℕ) : Char := sextetChar (b.toNat % 16 * 4 + c / 64)

def fourth (c : Char) : Char := sextetChar (c.toNat % 64)

/-- Three bytes at a time. -/
def encode : List Char → List Char
  | [] => []
  | [a] => [first a, second a 0, '=', '=']
  | [a, b] => [first a, second a b.toNat, third b 0, '=']
  | a :: b :: c :: bytes =>
      first a :: second a b.toNat :: third b c.toNat :: fourth c :: encode bytes

theorem length_encode (bytes : List Char) :
    (encode bytes).length = (bytes.length + 2) / 3 * 4 := by
  induction bytes using encode.induct with
  | case1 => rfl
  | case2 a => simp [encode]
  | case3 a b => simp [encode]
  | case4 a b c bytes ih =>
      rw [encode, List.length_cons, List.length_cons, List.length_cons, List.length_cons, ih,
        List.length_cons, List.length_cons, List.length_cons]
      omega

/-! ## Decoding -/

/-- The byte of a number. -/
def byte (n : ℕ) : Char := Char.ofNat (n % 256)

/-- Four characters at a time, the padding left out. -/
def decodeGroups : List Char → Option (List Char)
  | [] => some []
  | [p] => (sextet p).map fun _ => []
  | [p, q] => do
      let p ← sextet p
      let q ← sextet q
      return [byte (p * 4 + q / 16)]
  | [p, q, r] => do
      let p ← sextet p
      let q ← sextet q
      let r ← sextet r
      return [byte (p * 4 + q / 16), byte (q * 16 + r / 4)]
  | p :: q :: r :: s :: chars => do
      let p ← sextet p
      let q ← sextet q
      let r ← sextet r
      let s ← sextet s
      let bytes ← decodeGroups chars
      return byte (p * 4 + q / 16) :: byte (q * 16 + r / 4) :: byte (r * 64 + s) :: bytes

/-- At most two characters of padding are removed. -/
def dropPad (chars : List Char) : List Char :=
  if chars.getLast? = some '=' then
    if chars.dropLast.getLast? = some '=' then chars.dropLast.dropLast else chars.dropLast
  else chars

def decode (chars : List Char) : Option (List Char) :=
  if chars = [] then some []
  else if chars.length < 4 ∨ chars.length % 4 ≠ 0 then none
  else decodeGroups (dropPad chars)

/-! ## Decoding gives back what was encoded -/

/-- The encoding without its padding. -/
def unpadded : List Char → List Char
  | [] => []
  | [a] => [first a, second a 0]
  | [a, b] => [first a, second a b.toNat, third b 0]
  | a :: b :: c :: bytes =>
      first a :: second a b.toNat :: third b c.toNat :: fourth c :: unpadded bytes

theorem encode_eq_unpadded (bytes : List Char) :
    ∃ k ≤ 2, encode bytes = unpadded bytes ++ List.replicate k '=' := by
  induction bytes using encode.induct with
  | case1 => exact ⟨0, Nat.zero_le 2, rfl⟩
  | case2 a => exact ⟨2, Nat.le_refl 2, rfl⟩
  | case3 a b => exact ⟨1, by norm_num, rfl⟩
  | case4 a b c bytes ih =>
      obtain ⟨k, hk, heq⟩ := ih
      refine ⟨k, hk, ?_⟩
      rw [encode, heq, unpadded]
      rfl

theorem dropPad_append_of_getLast {chars : List Char} (hlast : chars.getLast? ≠ some '=') {k : ℕ}
    (hk : k ≤ 2) : dropPad (chars ++ List.replicate k '=') = chars := by
  match k, hk with
  | 0, _ =>
      rw [List.replicate_zero, List.append_nil, dropPad, if_neg hlast]
  | 1, _ =>
      rw [List.replicate_one, dropPad, List.getLast?_concat, if_pos rfl, List.dropLast_concat,
        if_neg hlast]
  | 2, _ =>
      have htwo : chars ++ List.replicate 2 '=' = (chars ++ ['=']) ++ ['='] := by simp
      rw [htwo, dropPad, List.getLast?_concat, if_pos rfl, List.dropLast_concat,
        List.getLast?_concat, if_pos rfl, List.dropLast_concat]

theorem dropPad_append {chars : List Char} (h : '=' ∉ chars) {k : ℕ} (hk : k ≤ 2) :
    dropPad (chars ++ List.replicate k '=') = chars :=
  dropPad_append_of_getLast (fun heq => h (List.mem_of_getLast? heq)) hk

section Bytes

variable {a b c : Char}

theorem first_index (ha : a.toNat < 256) : a.toNat / 4 < 64 := by omega

theorem second_index {n : ℕ} (hn : n < 256) : a.toNat % 4 * 16 + n / 16 < 64 := by omega

theorem third_index {n : ℕ} (hn : n < 256) : b.toNat % 16 * 4 + n / 64 < 64 := by omega

theorem fourth_index : c.toNat % 64 < 64 := Nat.mod_lt _ (by norm_num)

/-- Every character is of the alphabet. -/
theorem mem_unpadded (bytes : List Char) : ∀ p ∈ unpadded bytes, ∃ d, p = sextetChar d := by
  induction bytes using unpadded.induct with
  | case1 => exact fun p hp => absurd hp List.not_mem_nil
  | case2 a =>
      rw [unpadded, List.forall_mem_cons, List.forall_mem_singleton]
      exact ⟨⟨_, rfl⟩, _, rfl⟩
  | case3 a b =>
      rw [unpadded, List.forall_mem_cons, List.forall_mem_cons, List.forall_mem_singleton]
      exact ⟨⟨_, rfl⟩, ⟨_, rfl⟩, _, rfl⟩
  | case4 a b c bytes ih =>
      rw [unpadded, List.forall_mem_cons, List.forall_mem_cons, List.forall_mem_cons,
        List.forall_mem_cons]
      exact ⟨⟨_, rfl⟩, ⟨_, rfl⟩, ⟨_, rfl⟩, ⟨_, rfl⟩, ih⟩

theorem pad_notMem_unpadded (bytes : List Char) : '=' ∉ unpadded bytes := by
  intro hpad
  obtain ⟨d, heq⟩ := mem_unpadded bytes '=' hpad
  exact sextetChar_ne_pad d heq.symm

theorem mem_encode (bytes : List Char) :
    ∀ p ∈ encode bytes, p = '=' ∨ ∃ d, p = sextetChar d := by
  obtain ⟨k, -, heq⟩ := encode_eq_unpadded bytes
  intro p hp
  rw [heq] at hp
  rcases List.mem_append.mp hp with hp | hp
  · exact .inr (mem_unpadded bytes p hp)
  · exact .inl (List.eq_of_mem_replicate hp)

theorem lt_of_mem_encode (bytes : List Char) : ∀ p ∈ encode bytes, p.toNat < 256 := by
  intro p hp
  rcases mem_encode bytes p hp with rfl | ⟨d, rfl⟩
  · decide
  · exact sextetChar_lt d

theorem newline_notMem_encode (bytes : List Char) : '\n' ∉ encode bytes := by
  intro hmem
  rcases mem_encode bytes _ hmem with heq | ⟨d, heq⟩
  · cases heq
  · exact sextetChar_ne_newline d heq.symm

theorem byte_eq {n : ℕ} (h : n % 256 = a.toNat) : byte n = a := by
  rw [byte, h, Char.ofNat_toNat]

theorem decodeGroups_unpadded {bytes : List Char} (h : ∀ a ∈ bytes, a.toNat < 256) :
    decodeGroups (unpadded bytes) = some bytes := by
  induction bytes using unpadded.induct with
  | case1 => rfl
  | case2 a =>
      rw [List.forall_mem_singleton] at h
      have hbyte : byte (a.toNat / 4 * 4 + (a.toNat % 4 * 16 + 0 / 16) / 16) = a :=
        byte_eq (by omega)
      rw [unpadded, decodeGroups, first, second, sextet_sextetChar _ (first_index h),
        sextet_sextetChar _ (second_index (by norm_num))]
      exact congrArg (fun a => some [a]) hbyte
  | case3 a b =>
      rw [List.forall_mem_cons, List.forall_mem_singleton] at h
      obtain ⟨ha, hb⟩ := h
      have hbytea : byte (a.toNat / 4 * 4 + (a.toNat % 4 * 16 + b.toNat / 16) / 16) = a :=
        byte_eq (by omega)
      have hbyteb : byte ((a.toNat % 4 * 16 + b.toNat / 16) * 16 +
          (b.toNat % 16 * 4 + 0 / 64) / 4) = b := byte_eq (by omega)
      rw [unpadded, decodeGroups, first, second, third, sextet_sextetChar _ (first_index ha),
        sextet_sextetChar _ (second_index hb), sextet_sextetChar _ (third_index (by norm_num))]
      exact congrArg₂ (fun a b => some [a, b]) hbytea hbyteb
  | case4 a b c bytes ih =>
      rw [List.forall_mem_cons, List.forall_mem_cons, List.forall_mem_cons] at h
      obtain ⟨ha, hb, hc, hbytes⟩ := h
      have hbytea : byte (a.toNat / 4 * 4 + (a.toNat % 4 * 16 + b.toNat / 16) / 16) = a :=
        byte_eq (by omega)
      have hbyteb : byte ((a.toNat % 4 * 16 + b.toNat / 16) * 16 +
          (b.toNat % 16 * 4 + c.toNat / 64) / 4) = b := byte_eq (by omega)
      have hbytec : byte ((b.toNat % 16 * 4 + c.toNat / 64) * 64 + c.toNat % 64) = c :=
        byte_eq (by omega)
      rw [unpadded, decodeGroups, first, second, third, fourth,
        sextet_sextetChar _ (first_index ha), sextet_sextetChar _ (second_index hb),
        sextet_sextetChar _ (third_index hc), sextet_sextetChar _ fourth_index, ih hbytes]
      change some (_ :: _ :: _ :: bytes) = _
      rw [hbytea, hbyteb, hbytec]

end Bytes

theorem decode_encode {bytes : List Char} (h : ∀ a ∈ bytes, a.toNat < 256) :
    decode (encode bytes) = some bytes := by
  have hlength := length_encode bytes
  obtain ⟨k, hk, heq⟩ := encode_eq_unpadded bytes
  rw [decode]
  split
  · rename_i hnil
    rw [hnil, List.length_nil] at hlength
    have hzero : bytes.length = 0 := by omega
    rw [List.eq_nil_of_length_eq_zero hzero]
  · rename_i hne
    have hpos := List.length_pos_iff.mpr hne
    rw [if_neg (by omega), heq, dropPad_append (pad_notMem_unpadded bytes) hk,
      decodeGroups_unpadded h]

end Base64
