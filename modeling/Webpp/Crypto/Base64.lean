import Webpp.Foundation.Base64

/-!
# Encoding a string into itself

`base64::encode` makes room in the output string and encodes into it what the view of the
input shows. Where the input is the output string, the view stays valid only if the string
keeps its memory, and bytes are read after they were overwritten.
-/

namespace Webpp.Crypto

open Base64

variable {mem : List Char}

/-- What goes wrong with a string. -/
inductive StringFault where
  /-- The view shows memory that the string has given back. -/
  | danglingView
  deriving DecidableEq

/-- `modp_b64::encode_len`. -/
def encodeLen (n : ℕ) : ℕ := (n + 2) / 3 * 4 + 1

/-- `str[i]`. -/
def load (mem : List Char) (i : ℕ) : Char := mem.getD i '\x00'

/-- `*p++ = c`, for each of the bytes. -/
def store (mem : List Char) (p : ℕ) (bytes : List Char) : List Char :=
  mem.take p ++ bytes ++ mem.drop (p + bytes.length)

/-- The loop of `modp_b64::encode` and the switch behind it, with the addresses of the next
byte of the input and of the output, and how many bytes are left. -/
def encodeFrom (mem : List Char) (str p : ℕ) : ℕ → List Char × ℕ
  | 0 => (store mem p ['\x00'], p)
  | 1 =>
      let mem := store mem p (encode [load mem str])
      (store mem (p + 4) ['\x00'], p + 4)
  | 2 =>
      let mem := store mem p (encode [load mem str, load mem (str + 1)])
      (store mem (p + 4) ['\x00'], p + 4)
  | len + 3 =>
      encodeFrom (store mem p (encode [load mem str, load mem (str + 1), load mem (str + 2)]))
        (str + 3) (p + 4) len

/-- `base64::encode(str, str)`, on a string with the capacity. -/
def encodeInPlace (capacity : ℕ) (str : List Char) : Except StringFault (List Char) :=
  if capacity < encodeLen str.length then .error .danglingView
  else
    let mem := str ++ List.replicate (encodeLen str.length - str.length) '\x00'
    let r := encodeFrom mem 0 0 str.length
    .ok (r.1.take r.2)

/-! ## What is read -/

/-- The bytes that are read, in their order. -/
def readFrom (mem : List Char) (str p : ℕ) : ℕ → List Char
  | 0 => []
  | 1 => [load mem str]
  | 2 => [load mem str, load mem (str + 1)]
  | len + 3 =>
      let bytes := [load mem str, load mem (str + 1), load mem (str + 2)]
      bytes ++ readFrom (store mem p (encode bytes)) (str + 3) (p + 4) len

theorem length_store {p : ℕ} (h : p ≤ mem.length) (bytes : List Char) :
    p + bytes.length ≤ (store mem p bytes).length := by
  rw [store, List.length_append, List.length_append, List.length_take_of_le h]
  exact Nat.le_add_right _ _

theorem store_store {p : ℕ} (h : p ≤ mem.length) (bytes bytes' : List Char) :
    store (store mem p bytes) (p + bytes.length) bytes' = store mem p (bytes ++ bytes') := by
  have hlength : (mem.take p ++ bytes).length = p + bytes.length := by
    rw [List.length_append, List.length_take_of_le h]
  have htake : (store mem p bytes).take (p + bytes.length) = mem.take p ++ bytes := by
    rw [store, ← hlength, List.take_left]
  have hdrop : (store mem p bytes).drop (p + bytes.length + bytes'.length) =
      mem.drop (p + (bytes ++ bytes').length) := by
    rw [store, ← List.drop_drop, ← hlength, List.drop_left, List.drop_drop, hlength,
      List.length_append, Nat.add_assoc]
  rw [store, htake, hdrop, List.append_assoc (mem.take p), store]

theorem encodeFrom_eq {str p : ℕ} (len : ℕ) (h : p ≤ mem.length) :
    encodeFrom mem str p len =
      (store mem p (encode (readFrom mem str p len) ++ ['\x00']),
        p + (encode (readFrom mem str p len)).length) := by
  induction mem, str, p, len using encodeFrom.induct with
  | case1 mem str p => rfl
  | case2 mem str p =>
      rw [encodeFrom, readFrom, ← store_store h]
      rfl
  | case3 mem str p =>
      rw [encodeFrom, readFrom, ← store_store h]
      rfl
  | case4 mem str p len ih =>
      have hlength : p + 4 ≤ (store mem p
          (encode [load mem str, load mem (str + 1), load mem (str + 2)])).length :=
        length_store h (encode [load mem str, load mem (str + 1), load mem (str + 2)])
      have hgroup : ∀ bytes, encode ([load mem str, load mem (str + 1), load mem (str + 2)] ++
          bytes) = encode [load mem str, load mem (str + 1), load mem (str + 2)] ++
            encode bytes := fun bytes => rfl
      rw [encodeFrom, ih hlength, readFrom, hgroup, List.append_assoc, ← store_store h,
        List.length_append, ← Nat.add_assoc]
      rfl

theorem encodeInPlace_eq {capacity : ℕ} {str : List Char}
    (h : encodeLen str.length ≤ capacity) :
    encodeInPlace capacity str = .ok (encode (readFrom
      (str ++ List.replicate (encodeLen str.length - str.length) '\x00') 0 0 str.length)) := by
  rw [encodeInPlace, if_neg (Nat.not_lt.mpr h)]
  dsimp only
  rw [encodeFrom_eq _ (Nat.zero_le _)]
  dsimp only
  rw [store, List.take_zero, List.nil_append, List.append_assoc, Nat.zero_add, List.take_left]

theorem readFrom_lt (str p len : ℕ) (h : ∀ c ∈ mem, c.toNat < 256) :
    ∀ c ∈ readFrom mem str p len, c.toNat < 256 := by
  have hload : ∀ {mem : List Char}, (∀ c ∈ mem, c.toNat < 256) → ∀ i,
      (load mem i).toNat < 256 := by
    intro mem h i
    rw [load, List.getD_eq_getElem?_getD]
    cases hget : mem[i]? with
    | none => decide
    | some c => exact h c (List.mem_of_getElem? hget)
  induction mem, str, p, len using readFrom.induct with
  | case1 mem str p => exact fun c hc => absurd hc List.not_mem_nil
  | case2 mem str p =>
      rw [readFrom, List.forall_mem_singleton]
      exact hload h _
  | case3 mem str p =>
      rw [readFrom, List.forall_mem_cons, List.forall_mem_singleton]
      exact ⟨hload h _, hload h _⟩
  | case4 mem str p len bytes ih =>
      have hbytes : ∀ c ∈ bytes, c.toNat < 256 := by
        rw [List.forall_mem_cons, List.forall_mem_cons, List.forall_mem_singleton]
        exact ⟨hload h _, hload h _, hload h _⟩
      have hstore : ∀ c ∈ store mem p (encode bytes), c.toNat < 256 := by
        intro c hc
        rcases List.mem_append.mp hc with hc | hc
        · rcases List.mem_append.mp hc with hc | hc
          · exact h c (List.mem_of_mem_take hc)
          · exact lt_of_mem_encode bytes c hc
        · exact h c (List.mem_of_mem_drop hc)
      intro c hc
      rw [readFrom] at hc
      rcases List.mem_append.mp hc with hc | hc
      · exact hbytes c hc
      · exact ih hstore c hc

end Webpp.Crypto
