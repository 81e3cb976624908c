import Mathlib.Logic.Function.Basic
import Webpp.Foundation.Loop
import Webpp.Uri.Charset
import Webpp.Uri.Status

/-!
# Parsing contexts

A parser works on a context: the input, the position in it, the output and the
status. An iterator is the rest of the input behind it, so that the end is `[]`.
Reading at the end, moving beyond it, and the other steps that leave the
behaviour of the source undefined are faults.

The parsers are generic in the output. `Output` is what they use of it; the
kinds of contexts are its values.
-/

/-!
## Parsing options

The options of the URI parsers and the three presets. Only the options a parser
reads are kept.
-/

namespace Webpp.Uri

/-- `uri_parsing_options`. -/
structure Options where
  eofIsValid : Bool
  parseCredentails : Bool
  emptyHostIsError : Bool
  parsePort : Bool
  parseQueries : Bool
  parseFragment : Bool
  allowTrailingEmptyIpv4Octet : Bool
  allowMultipleTrailingEmptyIpv4Octets : Bool
  allowIpv4HexOctets : Bool
  allowIpv4OctalOctets : Bool
  allowInvalidCharacters : Bool
  allowFileHosts : Bool
  handleWindowsDriveLetters : Bool
  ignoreTabsOrNewlines : Bool
  handleDotsInPaths : Bool
  deriving DecidableEq, Repr

/-- `standard_uri_parsing_options`, the default of every parser. -/
def standardUriParsingOptions : Options where
  eofIsValid := true
  parseCredentails := true
  emptyHostIsError := true
  parsePort := true
  parseQueries := true
  parseFragment := true
  allowTrailingEmptyIpv4Octet := true
  allowMultipleTrailingEmptyIpv4Octets := false
  allowIpv4HexOctets := true
  allowIpv4OctalOctets := true
  allowInvalidCharacters := true
  allowFileHosts := true
  handleWindowsDriveLetters := true
  ignoreTabsOrNewlines := true
  handleDotsInPaths := true

def strictUriParsingOptions : Options where
  eofIsValid := false
  parseCredentails := true
  emptyHostIsError := true
  parsePort := true
  parseQueries := true
  parseFragment := true
  allowTrailingEmptyIpv4Octet := false
  allowMultipleTrailingEmptyIpv4Octets := false
  allowIpv4HexOctets := false
  allowIpv4OctalOctets := false
  allowInvalidCharacters := false
  allowFileHosts := false
  handleWindowsDriveLetters := false
  ignoreTabsOrNewlines := false
  handleDotsInPaths := true

def looseUriParsingOptions : Options where
  eofIsValid := true
  parseCredentails := true
  emptyHostIsError := true
  parsePort := true
  parseQueries := true
  parseFragment := true
  allowTrailingEmptyIpv4Octet := true
  allowMultipleTrailingEmptyIpv4Octets := true
  allowIpv4HexOctets := true
  allowIpv4OctalOctets := true
  allowInvalidCharacters := true
  allowFileHosts := true
  handleWindowsDriveLetters := true
  ignoreTabsOrNewlines := true
  handleDotsInPaths := true

/-- The presets of the options. -/
inductive Preset where
  | standard
  | strict
  | loose
  deriving DecidableEq, Repr

def Preset.options : Preset → Options
  | standard => standardUriParsingOptions
  | strict => strictUriParsingOptions
  | loose => looseUriParsingOptions

end Webpp.Uri

namespace Webpp.Uri

/-- How a step of a parser can go wrong. -/
inductive Fault where
  /-- An iterator is read at the end of the input. -/
  | readPastEnd
  /-- An iterator is moved beyond the end of the input. -/
  | movePastEnd
  /-- An iterator is moved before the start of the input. -/
  | moveBeforeBegin
  /-- A fifth octet of an IPv4 address is stored. -/
  | writePastOctets
  /-- A loop goes on for ever. -/
  | diverges
  /-- `std::out_of_range` is thrown. -/
  | outOfRange
  /-- `stl::unreachable()` is reached. -/
  | unreachable
  deriving DecidableEq, Repr

abbrev Run (α : Type) := Except Fault α

theorem ok_bind {α β : Type} (a : α) (f : α → Run β) : (Except.ok a >>= f) = f a := rfl

theorem error_bind {α β : Type} (e : Fault) (f : α → Run β) :
    ((Except.error e : Run α) >>= f) = .error e := rfl

theorem exists_of_bind_eq_ok {α β : Type} {x : Run α} {f : α → Run β} {b : β}
    (h : (x >>= f) = .ok b) : ∃ a, x = .ok a ∧ f a = .ok b := by
  cases x with
  | error fault => cases h
  | ok a => exact ⟨a, rfl, h⟩

inductive Components where
  | scheme
  | username
  | password
  | host
  | port
  | path
  | queries
  | fragment
  deriving DecidableEq, Repr

inductive SchemeType where
  | notSpecial
  | specialScheme
  | file
  deriving DecidableEq, Repr

def isFileScheme (scheme : SchemeType) : Bool := scheme == .file

def isSpecialScheme (scheme : SchemeType) : Bool := scheme != .notSpecial

/-- What the parsers use of an output of type `σ`. -/
structure Output (σ : Type) where
  isModifiable : Bool
  isSegregated : Bool
  /-- `set_value<Comp>(ctx, beg, end)`. -/
  setValue : Components → List Char → List Char → σ → σ
  clear : Components → σ → σ
  hasValue : Components → σ → Bool
  /-- `get_output_view<Comp>(ctx)`. -/
  view : Components → σ → List Char
  /-- `append_to` the string, or the last segment, of a modifiable output. -/
  append : Components → List Char → σ → σ
  /-- Any other change of that string. -/
  edit : Components → (List Char → Run (List Char)) → σ → Run σ
  /-- The segments of a segregated host or path. -/
  segments : Components → σ → List (List Char)
  /-- A change of these segments. -/
  editSegments : Components → (List (List Char) → List (List Char)) → σ → σ
  /-- `emplace` on the map of a segregated output's queries. -/
  emplaceQuery : List Char × List Char → σ → σ

/-- `parsing_uri_context`. -/
structure Ctx (σ : Type) where
  beg : List Char
  pos : List Char
  out : σ
  status : Status
  scheme : SchemeType

namespace Ctx

variable {σ : Type}

def setValid (ctx : Ctx σ) (value : UriStatus) : Ctx σ :=
  { ctx with status := ctx.status.setValid value }

def setError (ctx : Ctx σ) (value : UriStatus) : Ctx σ :=
  { ctx with status := ctx.status.setError value }

def setWarning (ctx : Ctx σ) (warning : UriWarning) : Ctx σ :=
  { ctx with status := ctx.status.setWarning warning }

@[simp] theorem setValid_pos (ctx : Ctx σ) (value : UriStatus) :
    (ctx.setValid value).pos = ctx.pos := rfl

@[simp] theorem setValid_out (ctx : Ctx σ) (value : UriStatus) :
    (ctx.setValid value).out = ctx.out := rfl

@[simp] theorem setError_pos (ctx : Ctx σ) (value : UriStatus) :
    (ctx.setError value).pos = ctx.pos := rfl

@[simp] theorem setError_out (ctx : Ctx σ) (value : UriStatus) :
    (ctx.setError value).out = ctx.out := rfl

@[simp] theorem setWarning_pos (ctx : Ctx σ) (warning : UriWarning) :
    (ctx.setWarning warning).pos = ctx.pos := rfl

@[simp] theorem setWarning_out (ctx : Ctx σ) (warning : UriWarning) :
    (ctx.setWarning warning).out = ctx.out := rfl

@[simp] theorem setWarning_scheme (ctx : Ctx σ) (warning : UriWarning) :
    (ctx.setWarning warning).scheme = ctx.scheme := rfl

end Ctx

/-! ## Iterators -/

/-- `*pos`. -/
def deref : List Char → Run Char
  | [] => .error .readPastEnd
  | c :: _ => .ok c

/-- `pos += count`. -/
def advance (pos : List Char) (count : ℕ) : Run (List Char) :=
  if count ≤ pos.length then .ok (pos.drop count) else .error .movePastEnd

/-- The text from `start` to `stop`. -/
def slice (start stop : List Char) : List Char := start.take (start.length - stop.length)

@[simp] theorem deref_cons (c : Char) (pos : List Char) : deref (c :: pos) = .ok c := rfl

@[simp] theorem advance_one_cons (c : Char) (pos : List Char) :
    advance (c :: pos) 1 = .ok pos := by
  simp [advance]

@[simp] theorem advance_zero (pos : List Char) : advance pos 0 = .ok pos := by
  simp [advance]

theorem slice_append (run rest : List Char) : slice (run ++ rest) rest = run := by
  simp [slice]

/-! ## Kinds of contexts -/

/-- The output of a context of strings or string views: a text for each component. -/
abbrev Strings := Components → List Char

/-- `uri_components<std::string>`. -/
def stringOutput : Output Strings where
  isModifiable := true
  isSegregated := false
  setValue comp start stop out := Function.update out comp (slice start stop)
  clear comp out := Function.update out comp []
  hasValue comp out := !(out comp).isEmpty
  view comp out := out comp
  append comp chars out := Function.update out comp (out comp ++ chars)
  edit comp f out := do
    let text ← f (out comp)
    pure (Function.update out comp text)
  segments comp out := [out comp]
  editSegments _ _ out := out
  emplaceQuery _ out := out

/-- `uri_components<std::string_view>`, which only sets its components. -/
def viewOutput : Output Strings :=
  { stringOutput with isModifiable := false }

/-- The output of a segregated context: the host and the path are lists of segments
and the queries a map, in the order of insertion. -/
structure Segregated where
  strings : Strings
  segments : Components → List (List Char)
  queries : List (List Char × List Char)

/-- The components of a segregated output that are vectors of segments. -/
def Components.isVec : Components → Bool
  | host | path => true
  | _ => false

/-- `emplace`, which keeps an element that is there. -/
def emplaceNew (map : List (List Char × List Char)) (query : List Char × List Char) :
    List (List Char × List Char) :=
  if query.1 ∈ map.map Prod.fst then map else map ++ [query]

/-- The last segment with a text behind it. -/
def appendLast (segments : List (List Char)) (chars : List Char) : List (List Char) :=
  segments.dropLast ++ (segments.getLast?.map (· ++ chars)).toList

/-- `uri_components<vector, map>` of strings. -/
def segregatedOutput : Output Segregated where
  isModifiable := true
  isSegregated := true
  setValue comp start stop out :=
    if comp.isVec then
      { out with segments := Function.update out.segments comp [slice start stop] }
    else if comp = .queries then { out with queries := [(slice start stop, [])] }
    else { out with strings := Function.update out.strings comp (slice start stop) }
  clear comp out :=
    if comp.isVec then { out with segments := Function.update out.segments comp [] }
    else if comp = .queries then { out with queries := [] }
    else { out with strings := Function.update out.strings comp [] }
  hasValue comp out :=
    if comp.isVec then !(out.segments comp).isEmpty && out.segments comp != [[]]
    else if comp = .queries then !out.queries.isEmpty
    else !(out.strings comp).isEmpty
  view comp out := out.strings comp
  append comp chars out :=
    if comp.isVec then
      let segments := appendLast (out.segments comp) chars
      { out with segments := Function.update out.segments comp segments }
    else { out with strings := Function.update out.strings comp (out.strings comp ++ chars) }
  edit comp f out := do
    if comp.isVec then
      let text ← f ((out.segments comp).getLast?.getD [])
      let segments := (out.segments comp).dropLast ++ [text]
      pure { out with segments := Function.update out.segments comp segments }
    else
      let text ← f (out.strings comp)
      pure { out with strings := Function.update out.strings comp text }
  segments comp out := out.segments comp
  editSegments comp f out :=
    { out with segments := Function.update out.segments comp (f (out.segments comp)) }
  emplaceQuery query out := { out with queries := emplaceNew out.queries query }

/-- `uri_components<vector, map>` of string views. -/
def segregatedViewOutput : Output Segregated :=
  { segregatedOutput with isModifiable := false }

end Webpp.Uri
