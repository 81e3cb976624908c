import Webpp.Text.Digits

/-!
# Character sets

A bitmap of 256 bits decides which characters a parser stops at and which it
percent-encodes. A `char` is signed: from 0x80 on it is negative and no bitmap
contains it (`contains`), although `C0_CONTROL_ENCODE_SET` has those bits set.
-/

namespace Webpp.Uri

open Webpp.Text

/-- The characters whose bit is set. -/
abbrev AsciiBitmap := Char → Bool

/-- `ascii_bitmap{chars...}`. -/
def asciiBitmap (chars : List Char) : AsciiBitmap := fun c => chars.contains c

/-- `ascii_bitmap{set1, set2}`. -/
def AsciiBitmap.union (s t : AsciiBitmap) : AsciiBitmap := fun c => s c || t c

/-- `bitmap_range<first, last>()`. -/
def bitmapRange (first last : ℕ) : AsciiBitmap :=
  fun c => decide (first ≤ c.toNat) && decide (c.toNat ≤ last)

/-- `contains`, which is false of a negative character. -/
def AsciiBitmap.contains (s : AsciiBitmap) (c : Char) : Bool :=
  decide (c.toNat < 0x80) && s c

def upperAlpha : AsciiBitmap := bitmapRange 'A'.toNat 'Z'.toNat

def asciiAlpha : AsciiBitmap := upperAlpha.union (bitmapRange 'a'.toNat 'z'.toNat)

def alphaDigit : AsciiBitmap := asciiAlpha.union (bitmapRange '0'.toNat '9'.toNat)

def c0ControlSet : AsciiBitmap := bitmapRange 0x0 0x001F

/-- From 0x7E on, so that `~` is in it. -/
def c0ControlEncodeSet : AsciiBitmap := c0ControlSet.union (bitmapRange 0x007E 0x00FF)

def fragmentEncodeSet : AsciiBitmap :=
  c0ControlEncodeSet.union (asciiBitmap [' ', '"', '<', '>', '\x60'])

def queriesEncodeSet : AsciiBitmap :=
  c0ControlEncodeSet.union (asciiBitmap [' ', '"', '<', '>', '#'])

def specialQueriesEncodeSet : AsciiBitmap := queriesEncodeSet.union (asciiBitmap ['\''])

def pathEncodeSet : AsciiBitmap :=
  queriesEncodeSet.union (asciiBitmap ['?', '\x60', '\x7b', '\x7d'])

def userInfoEncodeSet : AsciiBitmap :=
  (pathEncodeSet.union (bitmapRange '['.toNat '^'.toNat)).union
    (asciiBitmap ['/', ':', ';', '=', '@', '|'])

def forbiddenHostCodePoints : AsciiBitmap :=
  asciiBitmap ['\x00', '\t', '\r', '\n', ' ', '#', '/', ':', '<', '>', '?', '@', '[', '\\',
    ']', '^', '|']

def forbiddenDomainCodePoints : AsciiBitmap :=
  (forbiddenHostCodePoints.union c0ControlSet).union (asciiBitmap ['%', '\x7F'])

/-- `make_hex_digit`, of the table `percent_hex_table` of uppercase digits. -/
def upperHexChars (d : ℕ) : Char := "0123456789ABCDEF".toList.getD d '\x00'

/-- `ascii::to_percent_hex`. -/
def toPercentHex (c : Char) : List Char :=
  ['%', upperHexChars (c.toNat / 16), upperHexChars (c.toNat % 16)]

theorem forall_ascii {P : Char → Prop} (h : ∀ n < 128, P (Char.ofNat n)) {c : Char}
    (hc : c.toNat < 128) : P c := by
  rw [← Char.ofNat_toNat c]
  exact h c.toNat hc

theorem AsciiBitmap.contains_union (s t : AsciiBitmap) (c : Char) :
    (s.union t).contains c = (s.contains c || t.contains c) := by
  rw [contains, contains, contains, union, Bool.and_or_distrib_left]

theorem mem_of_asciiBitmap_contains {chars : List Char} {c : Char}
    (h : (asciiBitmap chars).contains c = true) : c ∈ chars := by
  rw [AsciiBitmap.contains, asciiBitmap, Bool.and_eq_true] at h
  exact List.contains_iff_mem.mp h.2

/-! ## Percent-encoding -/

/-- `encode_uri_component` of one character with the policy `encode_chars`. -/
def encodeUriChar (chars : AsciiBitmap) (c : Char) : List Char :=
  if chars.contains c then toPercentHex c else [c]

/-- `encode_uri_component` with the policy `encode_chars`: what is written up to the
first invalid character, and where it stops. -/
def encodeUriComponent (chars invalidChars : AsciiBitmap) :
    List Char → List Char × List Char
  | [] => ([], [])
  | c :: pos =>
      if invalidChars.contains c then ([], c :: pos)
      else
        let r := encodeUriComponent chars invalidChars pos
        (encodeUriChar chars c ++ r.1, r.2)

def AsciiBitmap.findFirstIn (s : AsciiBitmap) : List Char → List Char
  | [] => []
  | c :: pos => if s.contains c then c :: pos else findFirstIn s pos

theorem encodeUriComponent_snd (chars invalidChars : AsciiBitmap) (pos : List Char) :
    (encodeUriComponent chars invalidChars pos).2 = invalidChars.findFirstIn pos := by
  induction pos with
  | nil => rfl
  | cons c pos ih =>
      rw [encodeUriComponent, AsciiBitmap.findFirstIn]
      split
      · rfl
      · exact ih

/-- The search only drops characters, and stops at a character of the set. -/
theorem AsciiBitmap.findFirstIn_spec (s : AsciiBitmap) (pos : List Char) :
    ∃ run, pos = run ++ s.findFirstIn pos ∧ (∀ c ∈ run, s.contains c = false) ∧
      ∀ c rest, s.findFirstIn pos = c :: rest → s.contains c = true := by
  induction pos with
  | nil => exact ⟨[], rfl, by simp, by simp [findFirstIn]⟩
  | cons c pos ih =>
      by_cases hc : s.contains c = true
      · refine ⟨[], by rw [findFirstIn, if_pos hc]; rfl, by simp, ?_⟩
        intro c' rest h
        rw [findFirstIn, if_pos hc] at h
        cases h
        exact hc
      · obtain ⟨run, hpos, hrun, hstop⟩ := ih
        rw [findFirstIn, if_neg hc]
        refine ⟨c :: run, by rw [List.cons_append, ← hpos], ?_, hstop⟩
        intro c' h
        rcases List.mem_cons.mp h with rfl | h
        · exact Bool.eq_false_iff.mpr hc
        · exact hrun c' h

end Webpp.Uri
