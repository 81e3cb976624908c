import Webpp.Uri.Encoding

/-!
# Encoding components

`encode_uri_component` on bytes, and that decoding takes it back. What is escaped goes through
`to_percent_hex`, which assumes of its argument that it is not above 0xFF: cast to a signed
`char` that is -1, so that the assumption is false of every character there.
-/

namespace Webpp.Uri.Encoding

open PercentCode

variable {type : CharType} {s : List UInt8}

/-- The two kinds of a character type of one byte. -/
inductive CharType where
  | signedChar
  | unsignedChar
  deriving DecidableEq, Repr

def CharType.value : CharType → UInt8 → ℤ
  | signedChar, c => c.toBitVec.toInt
  | unsignedChar, c => c.toNat

/-- A digit of `percent_hex_table`. -/
def upperHexDigit (d : ℕ) : UInt8 :=
  if d < 10 then '0'.toUInt8 + UInt8.ofNat d else 'A'.toUInt8 + UInt8.ofNat (d - 10)

/-- An entry of `percent_hex_table`, with its `\0`. -/
def percentHexEntry (b : ℕ) : List UInt8 :=
  [percentSign, upperHexDigit (b / 16), upperHexDigit (b % 16), 0]

def percentHexTable : List UInt8 := (List.range 256).flatMap percentHexEntry

/-- What `to_percent_hex` assumes. Its `IntType` is the type of the character. -/
def inPercentHexRange (type : CharType) (c : UInt8) : Bool :=
  decide (type.value c ≤ type.value 0xFF) && decide (type.value 0 ≤ type.value c)

/-- `ascii::to_percent_hex`, `none` where the assumption is false. -/
def toPercentHex (type : CharType) (c : UInt8) : Option (List UInt8) :=
  if inPercentHexRange type c then
    some ((percentHexTable.drop (c.toNat * 4)).takeWhile (· != 0))
  else none

/-- `encode_uri_component` of one character. -/
def encodeUriChar (type : CharType) (policy : UriEncodingPolicy) (chars : UInt8 → Bool)
    (c : UInt8) : Option (List UInt8) :=
  if policy.allows chars c then some [c] else toPercentHex type c

def encodeUriComponent (type : CharType) (policy : UriEncodingPolicy) (chars : UInt8 → Bool) :
    List UInt8 → Option (List UInt8)
  | [] => some []
  | c :: src => do
      let code ← encodeUriChar type policy chars c
      let output ← encodeUriComponent type policy chars src
      return code ++ output

/-! ## The table -/

theorem drop_flatMap {α β : Type*} {f : α → List β} {n : ℕ} (h : ∀ a, (f a).length = n)
    (l : List α) (k : ℕ) : (l.flatMap f).drop (k * n) = (l.drop k).flatMap f := by
  induction k generalizing l with
  | zero => rw [Nat.zero_mul, List.drop_zero, List.drop_zero]
  | succ k ih =>
      cases l with
      | nil => rw [List.flatMap_nil, List.drop_nil, List.drop_nil, List.flatMap_nil]
      | cons a l =>
          rw [List.flatMap_cons, List.drop_succ_cons, Nat.succ_mul, Nat.add_comm,
            List.drop_append, List.drop_eq_nil_of_le (by rw [h a]; exact Nat.le_add_right n _),
            h a, Nat.add_sub_cancel_left, List.nil_append, ih]

theorem upperHexDigit_ne_zero {d : ℕ} (h : d < 16) : upperHexDigit d ≠ 0 := by
  revert d
  decide

theorem hexValue_upperHexDigit (d : Fin 16) : hexValue (upperHexDigit d.val) = some d := by
  revert d
  decide

theorem percentHexTable_at (c : UInt8) :
    (percentHexTable.drop (c.toNat * 4)).takeWhile (· != 0) =
      [percentSign, upperHexDigit (c.toNat / 16), upperHexDigit (c.toNat % 16)] := by
  have hc : c.toNat < 256 := c.toNat_lt
  have hhigh : upperHexDigit (c.toNat / 16) ≠ 0 := upperHexDigit_ne_zero (by omega)
  have hlow : upperHexDigit (c.toNat % 16) ≠ 0 := upperHexDigit_ne_zero (by omega)
  have hentry : (List.range 256).drop c.toNat =
      c.toNat :: (List.range 256).drop (c.toNat + 1) := by
    rw [List.drop_eq_getElem_cons (by rwa [List.length_range]), List.getElem_range]
  have hmark : percentSign ≠ 0 := by decide
  rw [percentHexTable, drop_flatMap (n := 4) (fun _ => rfl), hentry, List.flatMap_cons,
    percentHexEntry]
  simp [hmark, hhigh, hlow]

/-! ## The pieces of the encoded text -/

/-- The piece that stands for a character. -/
def pieceOf (policy : UriEncodingPolicy) (chars : UInt8 → Bool) (c : UInt8) : Piece UInt8 :=
  if policy.allows chars c then .plain c
  else .escape (upperHexDigit (c.toNat / 16)) (upperHexDigit (c.toNat % 16))

section Pieces

variable {policy : UriEncodingPolicy} {chars : UInt8 → Bool}

theorem standsFor_pieceOf (c : UInt8) :
    standsFor policy chars (pieceOf policy chars c) = some c := by
  have hc : c.toNat < 256 := c.toNat_lt
  rw [pieceOf]
  split_ifs with hallowed
  · rw [standsFor, if_pos hallowed]
  · have hhigh := hexValue_upperHexDigit ⟨c.toNat / 16, by omega⟩
    have hlow := hexValue_upperHexDigit ⟨c.toNat % 16, by omega⟩
    rw [standsFor, hhigh, hlow, Option.bind_some, Option.map_some, Nat.div_add_mod,
      UInt8.ofNat_toNat]

theorem pieceOf_proper (h : policy.allows chars percentSign = false) (c : UInt8) :
    (pieceOf policy chars c).Proper percentSign := by
  rw [pieceOf]
  split_ifs with hallowed
  · rintro rfl
    rw [h] at hallowed
    cases hallowed
  · trivial

/-- Where the assumption is true, or nothing is escaped, the text is put together from the
pieces. -/
theorem encodeUriComponent_pieces
    (h : ∀ c ∈ s, policy.allows chars c = true ∨ inPercentHexRange type c = true) :
    encodeUriComponent type policy chars s =
      some ((s.map (pieceOf policy chars)).flatMap (Piece.text percentSign)) := by
  induction s with
  | nil => rfl
  | cons c s ih =>
      have hcode : encodeUriChar type policy chars c =
          some ((pieceOf policy chars c).text percentSign) := by
        rw [encodeUriChar, pieceOf]
        split_ifs with hallowed
        · rfl
        · rw [toPercentHex, if_pos ((h c List.mem_cons_self).resolve_left hallowed),
            percentHexTable_at, Piece.text]
      rw [encodeUriComponent, hcode, ih fun c' hc' => h c' (List.mem_cons_of_mem c hc')]
      rfl

theorem pieces_encoded (h : policy.allows chars percentSign = false) (s : List UInt8) :
    pieces percentSign ((s.map (pieceOf policy chars)).flatMap (Piece.text percentSign)) =
      s.map (pieceOf policy chars) := by
  refine pieces_flatMap_text fun p hp => ?_
  obtain ⟨c, _, rfl⟩ := List.mem_map.mp hp
  exact pieceOf_proper h c

end Pieces

/-! ## The round trip -/

/-- The encoded text is one of allowed characters and escapes of two digits, and it is decoded to
what has been encoded. -/
def RoundTrips (type : CharType) (policy : UriEncodingPolicy) (chars : UInt8 → Bool)
    (s : List UInt8) : Prop :=
  ∃ text, encodeUriComponent type policy chars s = some text ∧
    (decodeUriComponent policy chars text).result = some s ∧
    ∀ p ∈ pieces percentSign text, (standsFor policy chars p).isSome

variable {policy : UriEncodingPolicy} {chars : UInt8 → Bool}

theorem roundTrips_of_range (hpercent : policy.allows chars percentSign = false)
    (h : ∀ c ∈ s, policy.allows chars c = true ∨ inPercentHexRange type c = true) :
    RoundTrips type policy chars s := by
  refine ⟨_, encodeUriComponent_pieces h, ?_, ?_⟩
  · rw [decodeUriComponent_result, pieces_encoded hpercent, List.mapM_map]
    have hread : ∀ c ∈ s, (readsAs policy chars ∘ pieceOf policy chars) c = some c :=
      fun c _ => readsAs_of_standsFor (standsFor_pieceOf c)
    rw [mapM_congr hread]
    exact List.mapM_pure.trans (congrArg some (List.map_id s))
  · rw [pieces_encoded hpercent]
    intro p hp
    obtain ⟨c, _, rfl⟩ := List.mem_map.mp hp
    rw [standsFor_pieceOf, Option.isSome_some]

theorem inPercentHexRange_eq (type : CharType) (c : UInt8) :
    inPercentHexRange type c = decide (type = .unsignedChar) := by
  cases type with
  | signedChar =>
      have hmax : CharType.signedChar.value 0xFF = -1 := by decide
      have hmin : CharType.signedChar.value 0 = 0 := by decide
      rw [inPercentHexRange, hmax, hmin, ← Bool.decide_and]
      exact decide_eq_false (by omega)
  | unsignedChar =>
      have hc : c.toNat < 256 := c.toNat_lt
      have hmax : CharType.unsignedChar.value 0xFF = 255 := by decide
      have hmin : CharType.unsignedChar.value 0 = 0 := by decide
      rw [inPercentHexRange, hmax, hmin, ← Bool.decide_and, CharType.value]
      exact decide_eq_true (by omega)

theorem encodeUriComponent_eq_none {c : UInt8} (hc : c ∈ s)
    (hallowed : ¬ policy.allows chars c = true) (hrange : inPercentHexRange type c = false) :
    encodeUriComponent type policy chars s = none := by
  have hnone : encodeUriChar type policy chars c = none := by
    rw [encodeUriChar, if_neg hallowed, toPercentHex, hrange]
    rfl
  induction s with
  | nil => cases hc
  | cons c' s ih =>
      rw [encodeUriComponent]
      rcases List.mem_cons.mp hc with rfl | hmem
      · rw [hnone]
        rfl
      · rw [ih hmem]
        cases encodeUriChar type policy chars c' with
        | none => rfl
        | some code => rfl

/-- The round trip is right with an unsigned `char`, and with a signed one only where nothing is
escaped. -/
theorem encode_roundTrips_iff (type : CharType) (chars : UInt8 → Bool) (s : List UInt8)
    (hpercent : chars percentSign = false) :
    RoundTrips type .skipChars chars s ↔ type = .unsignedChar ∨ ∀ c ∈ s, chars c = true := by
  constructor
  · rintro ⟨text, hencode, -⟩
    by_contra hneither
    obtain ⟨htype, hescaped⟩ := not_or.mp hneither
    obtain ⟨c, hescaped⟩ := not_forall.mp hescaped
    obtain ⟨hc, hescaped⟩ := Classical.not_imp.mp hescaped
    have hnone : encodeUriComponent type .skipChars chars s = none :=
      encodeUriComponent_eq_none hc hescaped
        ((inPercentHexRange_eq type c).trans (decide_eq_false htype))
    rw [hnone] at hencode
    cases hencode
  · intro h
    refine roundTrips_of_range hpercent fun c hc => ?_
    rcases h with htype | hall
    · exact .inr ((inPercentHexRange_eq type c).trans (decide_eq_true htype))
    · exact .inl (hall c hc)

/-- A byte that is escaped as an unsigned `char`, and comes back. -/
theorem roundTrips_unsigned : RoundTrips .unsignedChar .skipChars (fun _ => false) [0xFF] :=
  (encode_roundTrips_iff .unsignedChar (fun _ => false) [0xFF] rfl).mpr (.inl rfl)

/-- With a signed `char`, the first character that is escaped breaks the assumption. -/
theorem not_roundTrips_signed :
    ¬ ∀ (type : CharType) (chars : UInt8 → Bool) (s : List UInt8), chars percentSign = false →
      RoundTrips type .skipChars chars s := by
  intro h
  obtain ⟨text, hencode, -⟩ := h .signedChar (fun _ => false) [0x20] rfl
  have hnone : encodeUriComponent .signedChar .skipChars (fun _ => false) [0x20] = none := by
    decide
  rw [hnone] at hencode
  cases hencode

end Webpp.Uri.Encoding
