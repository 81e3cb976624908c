import Mathlib.Data.List.TakeWhile
import Webpp.Text.Digits

/-!
# Cookies

The name and the value at the start of a cookie, which the parsers of both kinds of
cookies read with `parse_SE_value`. The texts are what is left of the source.
-/

namespace Webpp.Http

open Webpp.Text

/-! ## Character sets -/

/-- `standard_whitespaces`. -/
def isWhitespace (c : Char) : Bool := [' ', '\n', '\r', '\t', '\x0c', '\x0b'].contains c

def isAlpha (c : Char) : Bool :=
  decide ('a' ≤ c ∧ c ≤ 'z') || decide ('A' ≤ c ∧ c ≤ 'Z')

/-- `ALPHA_DIGIT`. -/
def isAlphaDigit (c : Char) : Bool := isAlpha c || isDigit c

def validCookieName (c : Char) : Bool :=
  isAlphaDigit c || ['!', '#', '$', '%', '&', '\'', '*', '+', '-', '.', '^', '_', '\x60', '|',
    '~'].contains c

def validCookieValue (c : Char) : Bool :=
  isAlphaDigit c || ['!', '#', '$', '%', '&', '\'', '(', ')', '*', '+', '-', '.', '/', ':', '<',
    '=', '>', '?', '@', '[', ']', '^', '_', '\x60', '\x7b', '|', '\x7d', '~'].contains c

theorem validCookieName_of_value {c : Char} (h : validCookieValue c = false) :
    validCookieName c = false := by
  rw [validCookieValue, Bool.or_eq_false_iff] at h
  rw [validCookieName, h.1, Bool.false_or]
  simp_all

/-! ## Trimming -/

def ltrim (str : List Char) : List Char := str.dropWhile isWhitespace

def rtrim (str : List Char) : List Char := (str.reverse.dropWhile isWhitespace).reverse

def trim (str : List Char) : List Char := rtrim (ltrim str)

/-- `lremove`: one character of the set is removed. -/
def lremove (char : Char) : List Char → List Char
  | [] => []
  | c :: str => if c = char then str else c :: str

/-! ## A name and a value -/

/-- What `parse_SE_name` and `parse_SE_value` change: the source, the name and the value,
and whether they are valid. -/
structure SePair where
  str : List Char
  name : List Char
  value : List Char
  valid : Bool

/-- `parse_SE_name`: a name has a character behind it, but it may be empty. -/
def parseSeName (p : SePair) : SePair :=
  let str := ltrim p.str
  match str.dropWhile validCookieName with
  | [] => { p with str := str, valid := false }
  | c :: rest =>
      { p with str := c :: rest, name := str.takeWhile validCookieName, valid := true }

/-- What is between a name and its value: one `=` with whitespace around it. -/
def skipEquals (str : List Char) : List Char := ltrim (lremove '=' (ltrim str))

/-- The value at `str`, which may be quoted. -/
def parseValue (p : SePair) (str : List Char) : SePair :=
  if str.head? = some '"' then
    let quoted := str.tail
    let rest := quoted.dropWhile validCookieValue
    if rest.head? = some '"' then
      { p with str := rest.tail, value := quoted.takeWhile validCookieValue }
    else { p with str := str, valid := false }
  else
    { p with
      str := str.dropWhile validCookieValue
      value := str.takeWhile validCookieValue }

def parseSeValue (p : SePair) : SePair :=
  let p := parseSeName p
  if p.valid then parseValue p (skipEquals p.str) else p

/-! ## The source gets shorter -/

theorem lremove_suffix (char : Char) (str : List Char) : lremove char str <:+ str := by
  cases str with
  | nil => exact List.suffix_refl _
  | cons c str =>
      rw [lremove]
      split
      · exact List.suffix_cons ..
      · exact List.suffix_refl _

theorem parseSeName_suffix (p : SePair) : (parseSeName p).str <:+ ltrim p.str := by
  rw [parseSeName]
  split
  · exact List.suffix_refl _
  · rename_i c rest hrest
    rw [← hrest]
    exact List.dropWhile_suffix _

theorem skipEquals_suffix (str : List Char) : skipEquals str <:+ str :=
  (List.dropWhile_suffix _).trans ((lremove_suffix _ _).trans (List.dropWhile_suffix _))

theorem parseValue_suffix (p : SePair) (str : List Char) : (parseValue p str).str <:+ str := by
  rw [parseValue]
  split
  · simp only
    split
    · exact (List.tail_suffix _).trans ((List.dropWhile_suffix _).trans (List.tail_suffix _))
    · exact List.suffix_refl _
  · exact List.dropWhile_suffix _

theorem parseSeValue_suffix (p : SePair) : (parseSeValue p).str <:+ (parseSeName p).str := by
  rw [parseSeValue]
  split
  · exact (parseValue_suffix _ _).trans (skipEquals_suffix _)
  · exact List.suffix_refl _

theorem parseValue_stuck {p : SePair} {c : Char} {rest : List Char}
    (hvalid : (parseValue p (c :: rest)).valid = true)
    (h : (parseValue p (c :: rest)).str = c :: rest) : c ≠ '"' ∧ validCookieValue c = false := by
  by_cases hquote : (c :: rest).head? = some '"'
  · rw [parseValue, if_pos hquote] at h hvalid
    by_cases hclose : ((c :: rest).tail.dropWhile validCookieValue).head? = some '"'
    · rw [if_pos hclose] at h
      have hle := ((List.tail_suffix ((c :: rest).tail.dropWhile validCookieValue)).trans
        (List.dropWhile_suffix _)).length_le
      simp only at h
      rw [h, List.tail_cons] at hle
      exact absurd hle (Nat.not_succ_le_self _)
    · rw [if_neg hclose] at hvalid
      exact absurd hvalid Bool.false_ne_true
  · rw [parseValue, if_neg hquote] at h
    refine ⟨fun hc => hquote (by rw [hc]; rfl), ?_⟩
    rw [← Bool.not_eq_true]
    intro hc
    simp only [List.dropWhile_cons_of_pos hc] at h
    have hle := (List.dropWhile_suffix (l := rest) validCookieValue).length_le
    rw [h] at hle
    exact absurd hle (Nat.not_succ_le_self _)

end Webpp.Http
