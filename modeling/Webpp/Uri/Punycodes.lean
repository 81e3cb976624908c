import Mathlib.Algebra.Group.Nat.Defs
import Mathlib.Algebra.Group.Int.Defs
import Mathlib.Data.List.Basic

/-!
# `utf8_to_punycode`

A label in UTF-8 is decoded, its ASCII bytes are copied behind `xn--`, and the other code points
follow as generalized variable-length integers. The model keeps what the function reads of its
input and writes to its output, and the exact results of the arithmetic on `delta`.
-/

namespace Webpp.Uri.Punycodes

/-- The bytes of the input, and the memory behind them. -/
structure Input where
  text : List UInt8
  after : ℕ → UInt8

/-- `input[i]`. -/
def Input.byte (input : Input) (i : ℕ) : UInt8 :=
  input.text.getD i (input.after (i - input.text.length))

/-! ## The search for bytes that are not ASCII -/

/-- The loop over words: whether it ends by itself, where it ends, and what it reads. -/
def checkWords (input : Input) : ℕ → ℕ → Bool × ℕ × List ℕ
  | 0, pos => (true, pos, [])
  | fuel + 1, pos =>
      if pos + 9 < input.text.length then
        if (List.range' pos 8).any (fun i => input.byte i &&& 0x80 ≠ 0) then
          (false, pos, List.range' pos 8)
        else
          let (ascii, last, reads) := checkWords input fuel (pos + 8)
          (ascii, last, List.range' pos 8 ++ reads)
      else (true, pos, [])

/-- The tail, byte by byte. -/
def checkTail (input : Input) : ℕ → ℕ → Bool × List ℕ
  | 0, _ => (true, [])
  | fuel + 1, pos =>
      if pos < input.text.length then
        if 0x80 ≤ input.byte pos then (false, [pos])
        else
          let (ascii, reads) := checkTail input fuel (pos + 1)
          (ascii, pos :: reads)
      else (true, [])

/-- `is_all_ascii`, and what is read for it. -/
def isAllAscii (input : Input) : Bool × List ℕ :=
  let (ascii, pos, reads) := checkWords input input.text.length 0
  if ascii then
    let (ascii, tail) := checkTail input input.text.length pos
    (ascii, reads ++ tail)
  else (false, reads)

/-! ## The decoder -/

/-- A byte that continues a sequence. -/
def continues (b : UInt8) : Bool := b &&& 0xC0 == 0x80

/-- The code point of the bytes from `char_pointer` on with the length of its sequence, and how
many of the bytes are read. -/
def decodeNonAscii (lookahead : ℕ) (byte : ℕ → UInt8) : Option (ℕ × ℕ) × ℕ :=
  let leading := byte 0
  if leading &&& 0xE0 = 0xC0 then
    if lookahead < 2 then (none, 1)
    else if ¬continues (byte 1) then (none, 2)
    else
      let codePoint := (leading &&& 0x1F).toNat <<< 6 ||| (byte 1 &&& 0x3F).toNat
      if codePoint < 0x80 ∨ 0x7FF < codePoint then (none, 2) else (some (codePoint, 2), 2)
  else if leading &&& 0xF0 = 0xE0 then
    if lookahead < 3 then (none, 1)
    else if ¬continues (byte 1) then (none, 2)
    else if ¬continues (byte 2) then (none, 3)
    else
      let codePoint := (leading &&& 0x0F).toNat <<< 12 ||| (byte 1 &&& 0x3F).toNat <<< 6 |||
        (byte 2 &&& 0x3F).toNat
      if codePoint < 0x800 ∨ 0xFFFF < codePoint ∨ (0xD7FF < codePoint ∧ codePoint < 0xE000) then
        (none, 3)
      else (some (codePoint, 3), 3)
  else if leading &&& 0xF8 = 0xF0 then
    if lookahead < 4 then (none, 1)
    else if ¬continues (byte 1) then (none, 2)
    else if ¬continues (byte 2) then (none, 3)
    else if ¬continues (byte 3) then (none, 4)
    else
      let codePoint := (leading &&& 0x07).toNat <<< 18 ||| (byte 1 &&& 0x3F).toNat <<< 12 |||
        (byte 2 &&& 0x3F).toNat <<< 6 ||| (byte 3 &&& 0x3F).toNat
      if codePoint ≤ 0xFFFF ∨ 0x10FFFF < codePoint then (none, 4) else (some (codePoint, 4), 4)
  else (none, 1)

/-- The variables of the loop over the input. -/
structure Buffers where
  charPointer : ℕ
  output : List UInt8
  all : List ℕ
  nonBasic : List ℕ
  reads : List ℕ

/-- `static_cast<size_t>(char_pointer - end_char_pointer)`. -/
def lookahead (input : Input) (pos : ℕ) : ℕ :=
  (((pos : ℤ) - input.text.length) % 2 ^ 64).toNat

/-- One round of the loop, which fails with what was read and written. -/
def decodeStep (input : Input) (b : Buffers) : Except Buffers Buffers :=
  let c := input.byte b.charPointer
  if 0x80 ≤ c then
    let (decoded, count) := decodeNonAscii (lookahead input b.charPointer)
      (fun i => input.byte (b.charPointer + i))
    let reads := b.reads ++ List.range' b.charPointer count
    match decoded with
    | none => .error { b with reads := reads }
    | some (codePoint, length) =>
        .ok { b with
          charPointer := b.charPointer + length
          all := b.all ++ [codePoint]
          nonBasic := b.nonBasic ++ [codePoint]
          reads := reads }
  else
    .ok { b with
      charPointer := b.charPointer + 1
      output := b.output ++ [c]
      all := b.all ++ [c.toNat]
      reads := b.reads ++ [b.charPointer] }

/-- The loop over the input. -/
def decodeLoop (input : Input) : ℕ → Buffers → Except Buffers Buffers
  | 0, b => .ok b
  | fuel + 1, b =>
      if b.charPointer < input.text.length then
        match decodeStep input b with
        | .error b => .error b
        | .ok b => decodeLoop input fuel b
      else .ok b

/-! ## `sort_unique_values` -/

/-- The place of `key` among the first `z` values. -/
def sortPlace (array : List ℕ) (key : ℕ) : ℕ → ℕ
  | 0 => 0
  | z + 1 => if key ≤ array.getD z 0 then sortPlace array key z else z + 1

/-- `memmove` of `count` values from `z` to `z + 1`. -/
def moveUp (array : List ℕ) (z count : ℕ) : List ℕ :=
  array.take (z + 1) ++ (array.drop z).take count ++ array.drop (z + 1 + count)

/-- The round of `k`, with the number of duplicates. -/
def sortStep (s : List ℕ × ℕ) (k : ℕ) : List ℕ × ℕ :=
  let (array, duplicates) := s
  let key := array.getD k 0
  let z := sortPlace array key (k - duplicates)
  if z = k then (array, duplicates)
  else if key < array.getD z 0 then ((moveUp array z (k - duplicates - z)).set z key, duplicates)
  else if array.getD z 0 = key then (array, duplicates + 1)
  else (array.set z key, duplicates)

def sortUniqueValues (array : List ℕ) : List ℕ :=
  ((List.range' 1 (array.length - 1)).foldl sortStep (array, 0)).1

/-! ## The integers -/

/-- An `uint32_t`. -/
def u32 (x : ℤ) : ℕ := (x % 2 ^ 32).toNat

/-- The loop of `adapt`. -/
def shrink : ℕ → ℕ → ℕ → ℕ × ℕ
  | 0, delta, k => (delta, k)
  | fuel + 1, delta, k => if 35 * 26 / 2 < delta then shrink fuel (delta / 35) (k + 36) else (delta, k)

/-- `adapt`, and the exact results of its arithmetic. -/
def adapt (delta points : ℕ) (isFirst : Bool) : ℕ × List ℤ :=
  let delta := delta / if isFirst then 700 else 2
  let sum : ℤ := delta + delta / points
  let (delta, k) := shrink (u32 sum) (u32 sum) 0
  let a : ℤ := 36 * delta
  let b : ℤ := delta + 38
  let bias : ℤ := k + u32 a / u32 b
  (u32 bias, [sum, a, b, bias])

/-- The character of a digit. -/
def digitChar (q : ℕ) : UInt8 := UInt8.ofNat (if q < 26 then q + 97 else q + 22)

/-- `xn--` -/
def acePrefix : List UInt8 := [0x78, 0x6E, 0x2D, 0x2D]

/-- `init_output + 63`, from the start of the output. -/
def outputLimit : ℕ := acePrefix.length + 63

/-- The loop that writes `q`, which fails when the output is too long. -/
def putInteger (bias : ℕ) : ℕ → ℕ → ℕ → List UInt8 → Except (List UInt8) (List UInt8)
  | 0, _, _, output => .ok output
  | fuel + 1, k, q, output =>
      if outputLimit ≤ output.length then .error output
      else
        let t := if k ≤ bias then 1 else if bias + 26 ≤ k then 26 else k - bias
        if q < t then .ok (output ++ [digitChar q])
        else
          putInteger bias fuel (k + 36) ((q - t) / (36 - t))
            (output ++ [digitChar (t + (q - t) % (36 - t))])

/-! ## The encoder -/

/-- The variables of the loop over the code points that are not basic. -/
structure Registers where
  n : ℕ
  bias : ℕ
  delta : ℕ
  processed : ℕ
  output : List UInt8
  /-- The results of the arithmetic on `delta`, before they are reduced. -/
  exact : List ℤ

/-- One round of the loop over the code points of the label. -/
def scan (basicCount : ℕ) (r : Registers) (c : ℕ) : Except Registers Registers :=
  if c < r.n then
    let sum : ℤ := r.delta + 1
    let r := { r with delta := u32 sum, exact := r.exact ++ [sum] }
    if r.delta = 0 then .error r else .ok r
  else if c = r.n then
    match putInteger r.bias (r.delta + 1) 36 r.delta r.output with
    | .error output => .error { r with output := output }
    | .ok output =>
        let (bias, exact) := adapt r.delta (u32 (r.processed + 1)) (basicCount = r.processed)
        .ok { r with
          bias := bias
          delta := 0
          processed := r.processed + 1
          output := output
          exact := r.exact ++ exact }
  else .ok r

/-- The loop over the code points that are not basic. The sorted values last as long as there are
code points to be processed. -/
def encodeLoop (all : List ℕ) (basicCount : ℕ) : List ℕ → Registers → Except Registers Registers
  | [], r => .ok r
  | codePoint :: nonBasic, r =>
      if r.processed < all.length then
        let gap : ℤ := codePoint - r.n
        let sum : ℤ := r.delta + u32 gap * (r.processed + 1)
        match all.foldlM (scan basicCount)
            { r with n := codePoint, delta := u32 sum, exact := r.exact ++ [gap, sum] } with
        | .error r => .error r
        | .ok r =>
            encodeLoop all basicCount nonBasic
              { r with
                n := u32 (r.n + 1)
                delta := u32 (r.delta + 1)
                exact := r.exact ++ [(r.n : ℤ) + 1, (r.delta : ℤ) + 1] }
      else .ok r

/-! ## The function -/

/-- What is returned, written and read. -/
structure Result where
  value : ℤ
  output : List UInt8
  reads : List ℕ
  exact : List ℤ

/-- The delimiter behind the ASCII bytes. -/
def delimit (output : List UInt8) : List UInt8 :=
  if acePrefix.length < output.length then output ++ [0x2D] else output

/-- The registers before the loop. -/
def registers (b : Buffers) : Registers where
  n := 128
  bias := 72
  delta := 0
  processed := b.output.length - acePrefix.length
  output := delimit b.output
  exact := []

/-- The variables before the loop over the input. -/
def buffers (reads : List ℕ) : Buffers where
  charPointer := 0
  output := acePrefix
  all := []
  nonBasic := []
  reads := reads

def utf8ToPunycode (input : Input) : Result :=
  let length := input.text.length
  if 62 < length then { value := -1, output := [], reads := [], exact := [] }
  else
    let (ascii, reads) := isAllAscii input
    if ascii then
      { value := length + 1
        output := input.text ++ [0x2D]
        reads := reads ++ List.range length
        exact := [] }
    else
      match decodeLoop input length (buffers reads) with
      | .error b => { value := -1, output := b.output, reads := b.reads, exact := [] }
      | .ok b =>
          match encodeLoop b.all (b.output.length - acePrefix.length)
              (sortUniqueValues b.nonBasic) (registers b) with
          | .error r => { value := -1, output := r.output, reads := b.reads, exact := r.exact }
          | .ok r =>
              { value := r.output.length
                output := r.output
                reads := b.reads
                exact := r.exact }

end Webpp.Uri.Punycodes
