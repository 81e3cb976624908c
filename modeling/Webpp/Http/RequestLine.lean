import Webpp.Text.Search

/-!
# `parse_request_line`

The method and the target are cut off at the first two spaces, each looked for in so many
characters. The version is a slice of three characters behind the `HTTP/`. Its start is a size
that does not count the terminator of the literal, less one for the terminator: the slice begins
with the slash, and no version is ever found.
-/

namespace Webpp.Http

open Webpp.Text

/-! ## The parser -/

def methodLimit : ℕ := 10

def uriLimit : ℕ := 8000

/-- The array `http_prefix`, with its terminator. -/
def httpPrefix : List Char := ['H', 'T', 'T', 'P', '/', '\x00']

/-- `ascii::size` of an array of `char`: the terminator is not counted. -/
def arraySize (array : List Char) : ℕ := array.length - 1

/-- `http_request_parser`, with its views as texts. -/
structure HttpRequestParser where
  methodView : List Char := []
  requestTargetView : List Char := []
  httpVersionView : List Char := []
  deriving DecidableEq, Repr

/-- What is in front of the first space, and what is behind it, where it is among the first
`limit` characters. -/
def cutAtSpace (limit : ℕ) (str : List Char) : Option (List Char × List Char) :=
  (findFirstOf [' '] (str.take limit)).map fun sp => (str.take sp, str.drop (sp + 1))

/-- The version, behind the target. -/
def parseVersion (p : HttpRequestParser) (str : List Char) : ℕ × HttpRequestParser :=
  if httpPrefix.dropLast.isPrefixOf str then
    let version := (str.drop (arraySize httpPrefix - 1)).take 3
    let p := { p with httpVersionView := version }
    if version ≠ ['1', '.', '0'] ∧ version ≠ ['1', '.', '1'] then (505, p) else (200, p)
  else (400, p)

/-- `parse_request_line`, with the status code and the parser. -/
def parseRequestLine (p : HttpRequestParser) (str : List Char) : ℕ × HttpRequestParser :=
  match cutAtSpace methodLimit str with
  | none => (501, p)
  | some (method, str) =>
      match cutAtSpace uriLimit str with
      | none => (414, { p with methodView := method })
      | some (target, str) =>
          parseVersion { p with methodView := method, requestTargetView := target } str

/-! ## Request lines -/

/-- The parts of a request line. -/
structure RequestLine where
  method : List Char
  target : List Char
  version : List Char
  method_ne_nil : method ≠ []
  method_length : method.length ≤ 9
  method_space : ' ' ∉ method
  target_length : target.length < 8000
  target_space : ' ' ∉ target
  version_known : version = ['1', '.', '0'] ∨ version = ['1', '.', '1']

namespace RequestLine

def text (l : RequestLine) : List Char :=
  l.method ++ ' ' :: (l.target ++ ' ' :: (['H', 'T', 'T', 'P', '/'] ++ l.version))

def views (l : RequestLine) : HttpRequestParser := ⟨l.method, l.target, l.version⟩

/-- The text is the line, and the line break or nothing is behind it. -/
def Begins (l : RequestLine) (str : List Char) : Prop :=
  str = l.text ∨ ∃ rest, str = l.text ++ '\r' :: '\n' :: rest

end RequestLine

/-- A request line is read into its parts, and nothing else is good. -/
structure ReadsRequestLine (p : HttpRequestParser) (str : List Char) : Prop where
  accepts : ∀ l : RequestLine, l.Begins str → parseRequestLine p str = (200, l.views)
  rejects : (parseRequestLine p str).1 = 200 → ∃ l : RequestLine, l.Begins str

/-! ## What the parser does -/

theorem parseVersion_of_prefix (p : HttpRequestParser) (rest : List Char) :
    parseVersion p (['H', 'T', 'T', 'P', '/'] ++ rest) =
      (505, { p with httpVersionView := '/' :: rest.take 2 }) := rfl

theorem parseVersion_ne (p : HttpRequestParser) (str : List Char) :
    (parseVersion p str).1 ≠ 200 := by
  by_cases hpre : httpPrefix.dropLast.isPrefixOf str = true
  · obtain ⟨rest, rfl⟩ := List.isPrefixOf_iff_prefix.mp hpre
    rw [show httpPrefix.dropLast = ['H', 'T', 'T', 'P', '/'] from rfl, parseVersion_of_prefix]
    exact (by decide : 505 ≠ 200)
  · rw [parseVersion, if_neg hpre]
    exact (by decide : 400 ≠ 200)

theorem parseRequestLine_ne (p : HttpRequestParser) (str : List Char) :
    (parseRequestLine p str).1 ≠ 200 := by
  rw [parseRequestLine]
  split
  · exact (by decide : 501 ≠ 200)
  · split
    · exact (by decide : 414 ≠ 200)
    · exact parseVersion_ne _ _

/-- Request lines are read rightly where there are none. -/
theorem readsRequestLine_iff (p : HttpRequestParser) (str : List Char) :
    ReadsRequestLine p str ↔ ¬ ∃ l : RequestLine, l.Begins str := by
  constructor
  · rintro h ⟨l, hl⟩
    have haccepts := h.accepts l hl
    exact parseRequestLine_ne p str (congrArg Prod.fst haccepts)
  · intro h
    exact ⟨fun l hl => absurd ⟨l, hl⟩ h, fun hgood => absurd hgood (parseRequestLine_ne p str)⟩

/-- `GET / HTTP/1.1` has the status 505. -/
theorem not_readsRequestLine_get : ¬ ∀ p str, ReadsRequestLine p str := by
  intro h
  let l : RequestLine := ⟨['G', 'E', 'T'], ['/'], ['1', '.', '1'], by decide, by decide,
    by decide, by decide, by decide, by decide⟩
  have hgood := (h {} l.text).accepts l (.inl rfl)
  exact parseRequestLine_ne {} l.text (congrArg Prod.fst hgood)

end Webpp.Http
