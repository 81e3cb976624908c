import Mathlib.Logic.Function.Basic
import Webpp.Crypto.Base64
import Webpp.Storage.MemoryGate
import Webpp.Text.Digits

/-!
# The files of a directory gate

A file holds the text of a key, of options and of a value, each behind a newline but the
first. The options are encoded in base64 if the gate says so, into the string that they are
read from.
-/

namespace Webpp.Storage

open Webpp.Crypto Webpp.Text

/-! ## Texts -/

/-- `lexical::cast` to and from a text, one the inverse of the other. A text of no value is
not known to be cast to anything. -/
structure TextCast (α : Type*) where
  toText : α → List Char
  ofText : List Char → Option α
  inverse : ∀ text a, ofText text = some a ↔ toText a = text

/-- A string is its own text. -/
def TextCast.string : TextCast (List Char) :=
  ⟨id, some, fun text a => by rw [Option.some.injEq, eq_comm]; rfl⟩

/-- A `size_t` in decimal. -/
def TextCast.size : TextCast UInt64 where
  toText n := Nat.toDigits 10 n.toNat
  ofText text :=
    let n := UInt64.ofNat (Nat.ofDigitChars 10 text 0)
    if Nat.toDigits 10 n.toNat = text then some n else none
  inverse := by
    intro text a
    dsimp only
    constructor
    · intro h
      split at h
      · rename_i htext
        rw [← Option.some.inj h]
        exact htext
      · cases h
    · rintro rfl
      rw [Nat.ofDigitChars_ten_toDigits, UInt64.ofNat_toNat, if_pos rfl]

/-! ## Files -/

/-- `gate_options`, but for the encryption of values, which does nothing. -/
structure GateOptions where
  extension : List Char := ['.', 'c', 'a', 'c', 'h', 'e']
  encodeOptions : Bool := true
  hashKeys : Bool := true

/-- The casts of a gate, with the capacity of a string that a number of that many digits is
cast to. -/
structure GateCasts (K V O : Type*) where
  key : TextCast K
  value : TextCast V
  options : TextCast O
  capacity : ℕ → ℕ

variable {K V O : Type*}

def serializeOpts (casts : GateCasts K V O) (gateOpts : GateOptions) (opts : O) :
    Except StringFault (List Char) :=
  let optsStr := casts.options.toText opts
  if gateOpts.encodeOptions then encodeInPlace (casts.capacity optsStr.length) optsStr
  else .ok optsStr

def serializeFile (casts : GateCasts K V O) (gateOpts : GateOptions)
    (data : CacheTuple K V O) : Except StringFault (List Char) := do
  let optsStr ← serializeOpts casts gateOpts data.options
  return casts.key.toText data.key ++ '\n' :: (optsStr ++ '\n' :: casts.value.toText data.value)

/-- What is before the first newline, and what is behind it. -/
def cutNewline (data : List Char) : Option (List Char × List Char) :=
  if '\n' ∈ data then
    some (data.takeWhile (· != '\n'), (data.dropWhile (· != '\n')).drop 1)
  else none

/-- The options of a file. -/
def deserializeOpts (casts : GateCasts K V O) (gateOpts : GateOptions) (optsStr : List Char) :
    Option O :=
  if gateOpts.encodeOptions then (Base64.decode optsStr).bind casts.options.ofText
  else casts.options.ofText optsStr

def deserializeFile (casts : GateCasts K V O) (gateOpts : GateOptions) (data : List Char) :
    Option (CacheTuple K V O) :=
  match cutNewline data with
  | none => none
  | some (keyStr, data) =>
      match cutNewline data with
      | none => none
      | some (optsStr, valueStr) =>
          (deserializeOpts casts gateOpts optsStr).bind fun opts =>
            (casts.key.ofText keyStr).bind fun key =>
              (casts.value.ofText valueStr).map fun value => ⟨key, value, opts⟩

theorem cutNewline_append {pre : List Char} (h : '\n' ∉ pre) (post : List Char) :
    cutNewline (pre ++ '\n' :: post) = some (pre, post) := by
  have hpre : ∀ c ∈ pre, (c != '\n') = true := by
    intro c hc
    rw [bne_iff_ne]
    exact fun heq => h (heq ▸ hc)
  have htake : (pre ++ '\n' :: post).takeWhile (· != '\n') = pre := by
    rw [List.takeWhile_append_of_pos hpre]
    simp
  have hdrop : (pre ++ '\n' :: post).dropWhile (· != '\n') = '\n' :: post := by
    rw [List.dropWhile_append_of_pos hpre]
    simp
  rw [cutNewline, if_pos (List.mem_append_right _ List.mem_cons_self), htake, hdrop,
    List.drop_one, List.tail_cons]

theorem deserializeFile_append {casts : GateCasts K V O} {gateOpts : GateOptions} {key : K}
    (hkey : '\n' ∉ casts.key.toText key) {optsStr : List Char} (hopts : '\n' ∉ optsStr)
    (value : V) :
    deserializeFile casts gateOpts
        (casts.key.toText key ++ '\n' :: (optsStr ++ '\n' :: casts.value.toText value)) =
      (deserializeOpts casts gateOpts optsStr).map fun opts => ⟨key, value, opts⟩ := by
  have hkeyOf := (casts.key.inverse _ key).mpr rfl
  have hvalueOf := (casts.value.inverse _ value).mpr rfl
  rw [deserializeFile, cutNewline_append hkey]
  dsimp only
  rw [cutNewline_append hopts]
  dsimp only
  cases deserializeOpts casts gateOpts optsStr with
  | none => rfl
  | some opts =>
      rw [hkeyOf, hvalueOf]
      rfl

end Webpp.Storage

/-!
## Directory gates

A directory gate keeps every entry in a file of its own. The name of the file is made of the
hash of the gate's name and the hash or the text of the key. Gates may share a directory, so
their operations are steps on the files in it.
-/

namespace Webpp.Storage

open Webpp.Crypto

/-- The files of a directory, by their names. -/
abbrev Directory := List Char → Option (List Char)

/-- The hash of strings, and the names that a file can be opened for writing with. -/
structure DirectorySystem where
  hash : List Char → UInt64
  canOpen : List Char → Bool

/-- `storage_gate`. The name is what the hash is made of, if there is one; `emptyValue` is
`value_type{}`. -/
structure DirectoryGate (K V O : Type*) where
  name : Option (List Char)
  gateOpts : GateOptions
  casts : GateCasts K V O
  keyHash : K → UInt64
  emptyValue : V

/-! ## The names of files -/

def directoryGateVersion : List Char := ['1', '.', '0', '.', '0']

/-- `extension` and `stem` of a name of a file: the extension starts at the last dot, but not
at a dot in front. -/
def splitExtension (name : List Char) : List Char × List Char :=
  let behind := (name.reverse.takeWhile (· != '.')).reverse
  let stem := name.take (name.length - behind.length - 1)
  if '.' ∉ name ∨ stem = [] ∨ name = ['.', '.'] then (name, []) else (stem, '.' :: behind)

namespace DirectoryGate

variable {K V O : Type*} (system : DirectorySystem) (gate : DirectoryGate K V O)

/-- `hashed_name`, empty without a name. -/
def hashedName : List Char :=
  match gate.name with
  | some name => TextCast.size.toText (system.hash name)
  | none => []

def serializeKey (key : K) : List Char :=
  if gate.gateOpts.hashKeys then TextCast.size.toText (gate.keyHash key)
  else gate.casts.key.toText key

/-- `key_path`, in the directory. -/
def keyPath (key : K) : List Char :=
  gate.hashedName system ++ '-' :: (gate.serializeKey key ++ '.' :: 'v' ::
    (directoryGateVersion ++ gate.gateOpts.extension))

def isOurCache (name : List Char) : Bool :=
  let (stem, extension) := splitExtension name
  extension == gate.gateOpts.extension && (gate.hashedName system).isPrefixOf stem &&
    directoryGateVersion.isSuffixOf stem

/-! ## The operations -/

def getFile (d : Directory) (name : List Char) : Option (CacheTuple K V O) :=
  (d name).bind (deserializeFile gate.casts gate.gateOpts)

def get (d : Directory) (key : K) : Option (CacheTuple K V O) :=
  gate.getFile d (gate.keyPath system key)

def set (d : Directory) (key : K) (value : V) (opts : O) : Except StringFault Directory :=
  if system.canOpen (gate.keyPath system key) then
    (serializeFile gate.casts gate.gateOpts ⟨key, value, opts⟩).map fun data =>
      Function.update d (gate.keyPath system key) (some data)
  else .ok d

/-- `set_options`: under the key that is read from the file. -/
def setOptions (d : Directory) (key : K) (opts : O) : Except StringFault Directory :=
  let data := (gate.get system d key).getD ⟨key, gate.emptyValue, opts⟩
  gate.set system d data.key data.value opts

def erase (d : Directory) (key : K) : Directory :=
  Function.update d (gate.keyPath system key) none

def clear (d : Directory) : Directory :=
  fun name => if gate.isOurCache system name then none else d name

def eraseIf (d : Directory) (predicate : CacheTuple K V O → Bool) : Directory :=
  fun name =>
    if gate.isOurCache system name && (gate.getFile d name).any predicate then none else d name

end DirectoryGate

/-! ## Gates that share a directory -/

section Shared

variable {ι : Type*} {K V O : ι → Type*}

/-- The calls on gates of different types of keys, values and options. -/
inductive DirectoryOp (K V O : ι → Type*) where
  | set (i : ι) (key : K i) (value : V i) (opts : O i)
  | setOptions (i : ι) (key : K i) (opts : O i)
  | get (i : ι) (key : K i)
  | erase (i : ι) (key : K i)
  | eraseIf (i : ι) (predicate : CacheTuple (K i) (V i) (O i) → Bool)
  | clear (i : ι)

variable (system : DirectorySystem) (gates : ∀ i, DirectoryGate (K i) (V i) (O i))

/-- The files after a call. -/
def DirectoryOp.step (d : Directory) : DirectoryOp K V O → Except StringFault Directory
  | set i key value opts => (gates i).set system d key value opts
  | setOptions i key opts => (gates i).setOptions system d key opts
  | get _ _ => .ok d
  | erase i key => .ok ((gates i).erase system d key)
  | eraseIf i predicate => .ok ((gates i).eraseIf system d predicate)
  | clear i => .ok ((gates i).clear system d)

/-- The files after some calls on an empty directory. -/
def runDirectory (ops : List (DirectoryOp K V O)) : Except StringFault Directory :=
  ops.foldlM (fun d op => op.step system gates d) fun _ => none

end Shared

end Webpp.Storage

/-!
# Files that are read back

The options of a file are read back if their digits are encoded as they are. The fourth
character is read after it was overwritten with the encoding of the third one, and the
seventh one after it was overwritten with a letter.
-/

namespace Webpp.Storage

open Base64 Webpp.Crypto Webpp.Text

/-! ## What is read of a text in place -/

/-- The bytes that are read of a text that is encoded in place. -/
def readInPlace (text : List Char) : List Char :=
  readFrom (text ++ List.replicate (encodeLen text.length - text.length) '\x00') 0 0 text.length

theorem readInPlace_of_length_le {text : List Char} (h : text.length ≤ 3) :
    readInPlace text = text := by
  match text, h with
  | [], _ => rfl
  | [a], _ => rfl
  | [a, b], _ => rfl
  | [a, b, c], _ => rfl

theorem readInPlace_middle (a b c d : Char) {rest : List Char} (h : rest.length ≤ 2) :
    readInPlace (a :: b :: c :: d :: rest) = a :: b :: c :: fourth c :: rest := by
  match rest, h with
  | [], _ => rfl
  | [e], _ => rfl
  | [e, f], _ => rfl

theorem head_readFrom (mem : List Char) (str p len : ℕ) :
    (readFrom mem str p (len + 1)).head? = some (load mem str) := by
  match len with
  | 0 => rfl
  | 1 => rfl
  | len + 2 => rfl

theorem readFrom_long (a b c d e f g : Char) (rest : List Char) (len : ℕ) :
    (readFrom (a :: b :: c :: d :: e :: f :: g :: rest) 0 0 (len + 7))[6]? =
      some (third e f.toNat) := by
  rw [show len + 7 = len + 4 + 3 from rfl, readFrom]
  change (readFrom (first a :: second a b.toNat :: third b c.toNat :: fourth c :: e :: f :: g ::
    rest) 3 4 (len + 1 + 3))[3]? = _
  rw [readFrom]
  change (readFrom (first a :: second a b.toNat :: third b c.toNat :: fourth c ::
    first (fourth c) :: second (fourth c) e.toNat :: third e f.toNat :: fourth f ::
    rest.drop 1) 6 8 (len + 1))[0]? = _
  rw [← List.head?_eq_getElem?, head_readFrom]
  rfl

theorem readInPlace_long (a b c d e f g : Char) (rest : List Char) :
    (readInPlace (a :: b :: c :: d :: e :: f :: g :: rest))[6]? = some (third e f.toNat) :=
  readFrom_long a b c d e f g (rest ++ _) rest.length

/-! ## Digits -/

/-- At most six digits, of which the third one is the fourth one and four more. -/
def KeepsDigits : List Char → Prop
  | _ :: _ :: c :: d :: rest => rest.length ≤ 2 ∧ digitValue c = digitValue d + 4
  | _ => True

theorem isDigit_bounds {c : Char} (h : c.isDigit = true) : 48 ≤ c.toNat ∧ c.toNat ≤ 57 := by
  rw [Char.isDigit, Bool.and_eq_true, decide_eq_true_iff, decide_eq_true_iff] at h
  exact ⟨UInt32.le_iff_toNat_le.mp h.1, UInt32.le_iff_toNat_le.mp h.2⟩

theorem fourth_eq_iff {c d : Char} (hc : c.isDigit = true) (hd : d.isDigit = true) :
    fourth c = d ↔ digitValue c = digitValue d + 4 := by
  have hcodes : ∀ n, 48 ≤ n → n ≤ 57 → ∀ m, 48 ≤ m → m ≤ 57 →
      (sextetChar (n % 64) = Char.ofNat m ↔ n - 48 = m - 48 + 4) := by decide
  obtain ⟨hc1, hc2⟩ := isDigit_bounds hc
  obtain ⟨hd1, hd2⟩ := isDigit_bounds hd
  have hfourth := hcodes c.toNat hc1 hc2 d.toNat hd1 hd2
  rw [Char.ofNat_toNat] at hfourth
  exact hfourth

theorem third_not_isDigit {e f : Char} (he : e.isDigit = true) (hf : f.isDigit = true) :
    (third e f.toNat).isDigit = false := by
  have hcodes : ∀ n, 48 ≤ n → n ≤ 57 → (sextetChar (n % 16 * 4)).isDigit = false := by decide
  obtain ⟨he1, he2⟩ := isDigit_bounds he
  obtain ⟨hf1, hf2⟩ := isDigit_bounds hf
  have hzero : f.toNat / 64 = 0 := Nat.div_eq_of_lt (by omega)
  rw [third, hzero, Nat.add_zero]
  exact hcodes e.toNat he1 he2

theorem readInPlace_eq_iff {text : List Char} (h : ∀ c ∈ text, c.isDigit = true) :
    readInPlace text = text ↔ KeepsDigits text := by
  match text with
  | [] => exact iff_of_true (readInPlace_of_length_le (by norm_num)) trivial
  | [a] => exact iff_of_true (readInPlace_of_length_le (by norm_num)) trivial
  | [a, b] => exact iff_of_true (readInPlace_of_length_le (by norm_num)) trivial
  | [a, b, c] => exact iff_of_true (readInPlace_of_length_le (by norm_num)) trivial
  | a :: b :: c :: d :: rest =>
      by_cases hrest : rest.length ≤ 2
      · have hdigits := fourth_eq_iff (h c (by simp)) (h d (by simp))
        rw [readInPlace_middle a b c d hrest, KeepsDigits, and_iff_right hrest, ← hdigits]
        simp
      · match rest, hrest with
        | [], hlong => exact absurd (Nat.zero_le 2) hlong
        | [e], hlong => exact absurd (Nat.le_succ 1) hlong
        | [e, f], hlong => exact absurd (Nat.le_refl 2) hlong
        | e :: f :: g :: rest, hlong =>
            refine iff_of_false (fun heq => ?_) fun hkeeps => hlong hkeeps.1
            have hseventh := readInPlace_long a b c d e f g rest
            rw [heq] at hseventh
            have hg : g = third e f.toNat := Option.some.inj hseventh
            have hletter := third_not_isDigit (h e (by simp)) (h f (by simp))
            rw [← hg, h g (by simp)] at hletter
            cases hletter

/-! ## Options -/

theorem newline_notMem_digits {text : List Char} (h : ∀ c ∈ text, c.isDigit = true) :
    '\n' ∉ text := fun hmem => absurd (h _ hmem) (by decide)

theorem readInPlace_lt {text : List Char} (h : ∀ c ∈ text, c.isDigit = true) :
    ∀ c ∈ readInPlace text, c.toNat < 256 := by
  refine readFrom_lt _ _ _ fun c hc => ?_
  rcases List.mem_append.mp hc with hc | hc
  · have hbounds := isDigit_bounds (h c hc)
    omega
  · rw [List.eq_of_mem_replicate hc]
    decide

variable {K V : Type*}

/-- The casts of a gate whose options are numbers. -/
def sizeCasts (key : TextCast K) (value : TextCast V) (capacity : ℕ → ℕ) :
    GateCasts K V UInt64 := ⟨key, value, .size, capacity⟩

/-- The file of a bundle is read back as the bundle. -/
def RoundTrips (casts : GateCasts K V UInt64) (gateOpts : GateOptions)
    (data : CacheTuple K V UInt64) : Prop :=
  (serializeFile casts gateOpts data).map (deserializeFile casts gateOpts) = .ok (some data)

theorem roundTrips_of_opts {casts : GateCasts K V UInt64} {gateOpts : GateOptions}
    {data : CacheTuple K V UInt64} (hkey : '\n' ∉ casts.key.toText data.key)
    {optsStr : List Char} (hopts : serializeOpts casts gateOpts data.options = .ok optsStr)
    (hline : '\n' ∉ optsStr) :
    RoundTrips casts gateOpts data ↔
      deserializeOpts casts gateOpts optsStr = some data.options := by
  rw [RoundTrips, serializeFile, hopts]
  change Except.ok (deserializeFile casts gateOpts _) = Except.ok (some data) ↔ _
  rw [deserializeFile_append hkey hline, Except.ok.injEq]
  cases deserializeOpts casts gateOpts optsStr with
  | none => exact iff_of_false nofun nofun
  | some opts =>
      rw [Option.map_some, Option.some.injEq, Option.some.injEq]
      constructor
      · intro heq
        rw [← heq]
      · intro heq
        rw [heq]

theorem roundTrips_iff (key : TextCast K) (value : TextCast V) (capacity : ℕ → ℕ)
    (gateOpts : GateOptions) (data : CacheTuple K V UInt64)
    (hkey : '\n' ∉ key.toText data.key) :
    RoundTrips (sizeCasts key value capacity) gateOpts data ↔
      gateOpts.encodeOptions = false ∨
        encodeLen (Nat.toDigits 10 data.options.toNat).length ≤
            capacity (Nat.toDigits 10 data.options.toNat).length ∧
          KeepsDigits (Nat.toDigits 10 data.options.toNat) := by
  have hdigits : ∀ c ∈ Nat.toDigits 10 data.options.toNat, c.isDigit = true := fun c hc =>
    Nat.isDigit_of_mem_toDigits (by norm_num) (by norm_num) hc
  have hinverse := TextCast.size.inverse
  cases hencode : gateOpts.encodeOptions with
  | false =>
      have hopts : serializeOpts (sizeCasts key value capacity) gateOpts data.options =
          .ok (Nat.toDigits 10 data.options.toNat) := by
        rw [serializeOpts, hencode]
        rfl
      rw [roundTrips_of_opts hkey hopts (newline_notMem_digits hdigits), deserializeOpts, hencode]
      exact iff_of_true ((hinverse _ _).mpr rfl) (.inl rfl)
  | true =>
      rw [or_iff_right (show ¬ true = false from nofun)]
      by_cases hcapacity : encodeLen (Nat.toDigits 10 data.options.toNat).length ≤
          capacity (Nat.toDigits 10 data.options.toNat).length
      · have hopts : serializeOpts (sizeCasts key value capacity) gateOpts data.options =
            .ok (encode (readInPlace (Nat.toDigits 10 data.options.toNat))) := by
          rw [serializeOpts, hencode]
          exact encodeInPlace_eq hcapacity
        have hbytes := readInPlace_lt hdigits
        rw [roundTrips_of_opts hkey hopts (newline_notMem_encode _), deserializeOpts,
          hencode, if_pos rfl, decode_encode hbytes, and_iff_right hcapacity,
          ← readInPlace_eq_iff hdigits, eq_comm (b := Nat.toDigits _ _)]
        exact hinverse _ _
      · have hopts : serializeOpts (sizeCasts key value capacity) gateOpts data.options =
            .error .danglingView := by
          rw [serializeOpts, hencode]
          exact if_pos (Nat.lt_of_not_le hcapacity)
        refine iff_of_false (fun h => ?_) fun h => hcapacity h.1
        rw [RoundTrips, serializeFile, hopts] at h
        cases h

/-- The capacity of a string that is short or as long as its text. -/
def smallCapacity (n : ℕ) : ℕ := max 15 n

/-- The fourth digit of 1051 is overwritten with itself. -/
theorem roundTrips_fixed :
    RoundTrips (sizeCasts .string .string smallCapacity) {} ⟨['k'], ['v', '\n'], 1051⟩ :=
  (roundTrips_iff .string .string smallCapacity {} ⟨['k'], ['v', '\n'], 1051⟩ (by decide)).mpr
    (.inr ⟨by decide, by decide, rfl⟩)

/-- The fourth digit of 1000 is read as a letter. -/
theorem not_roundTrips_thousand :
    ¬ ∀ (key value : TextCast (List Char)) (capacity : ℕ → ℕ) (gateOpts : GateOptions)
      (data : CacheTuple (List Char) (List Char) UInt64), '\n' ∉ key.toText data.key →
      RoundTrips (sizeCasts key value capacity) gateOpts data := by
  intro h
  have hthousand := h .string .string smallCapacity {} ⟨['k'], [], 1000⟩ (by decide)
  have hread : (serializeFile (sizeCasts .string .string smallCapacity) {}
      ⟨['k'], [], 1000⟩).map (deserializeFile (sizeCasts .string .string smallCapacity) {}) =
      .ok none := by rfl
  rw [RoundTrips, hread] at hthousand
  cases hthousand

end Webpp.Storage
