import Webpp.Uri.Context

/-!
# Components as offsets

The output of the context of 32-bit offsets, `uri_components<std::uint32_t>`. It stores where
the components begin; where they end is derived from what begins behind them. The greatest
number stands for a component that is not there.
-/

namespace Webpp.Uri

/-- `uri_components<std::uint32_t>`. -/
structure Offsets where
  uriBeg : List Char
  schemeEnd : UInt32
  authorityStart : UInt32
  passwordStart : UInt32
  hostStart : UInt32
  portStart : UInt32
  /-- The start of the path. -/
  authorityEnd : UInt32
  queriesStart : UInt32
  fragmentStart : UInt32
  uriEnd : UInt32

namespace Offsets

def omitted : UInt32 := 0xFFFFFFFF

/-- The offset of an iterator. -/
def offset (u : Offsets) (pos : List Char) : UInt32 :=
  UInt32.ofNat (u.uriBeg.length - pos.length)

def setMinAuthorityEnd (fin : UInt32) (u : Offsets) : Offsets :=
  { u with
    authorityEnd := if u.authorityEnd ≠ omitted then max u.authorityEnd fin else fin }

def setMinUriEnd (fin : UInt32) (u : Offsets) : Offsets :=
  { u with uriEnd := if u.uriEnd ≠ omitted then max u.uriEnd fin else fin }

/-- `set_scheme`, `set_username` and so on. -/
def set (comp : Components) (start stop : List Char) (u : Offsets) : Offsets :=
  let beg := u.offset start
  let fin := u.offset stop
  match comp with
  | .scheme =>
      let u := { u with uriBeg := start }
      let u := { u with schemeEnd := u.offset stop }
      u.setMinUriEnd u.schemeEnd
  | .username => ({ u with authorityStart := beg }.setMinAuthorityEnd fin).setMinUriEnd fin
  | .password => ({ u with passwordStart := beg }.setMinAuthorityEnd fin).setMinUriEnd fin
  | .host => ({ u with hostStart := beg }.setMinAuthorityEnd fin).setMinUriEnd fin
  | .port => ({ u with portStart := beg }.setMinAuthorityEnd fin).setMinUriEnd fin
  | .path => { u with authorityEnd := beg }.setMinUriEnd fin
  | .queries => { u with queriesStart := beg }.setMinUriEnd fin
  | .fragment => { u with fragmentStart := beg }.setMinUriEnd fin

def cleanAuthorityEnd (u : Offsets) : Offsets :=
  if u.authorityStart = omitted ∧ u.passwordStart = omitted ∧ u.portStart = omitted ∧
      u.hostStart = omitted then
    { u with authorityEnd := omitted }
  else u

/-- `clear_scheme`, `clear_username` and so on. -/
def clear (comp : Components) (u : Offsets) : Offsets :=
  match comp with
  | .scheme => { u with schemeEnd := omitted }
  | .username => { u with authorityStart := omitted }.cleanAuthorityEnd
  | .password => { u with passwordStart := omitted }.cleanAuthorityEnd
  | .host => { u with hostStart := omitted }.cleanAuthorityEnd
  | .port => { u with portStart := omitted }.cleanAuthorityEnd
  | .path =>
      let u := if u.queriesStart = omitted ∧ u.fragmentStart = omitted then
        { u with uriEnd := min u.authorityEnd u.uriEnd } else u
      { u with authorityEnd := min u.authorityEnd u.uriEnd }
  | .queries =>
      let u := if u.fragmentStart = omitted then
        { u with uriEnd := min u.fragmentStart u.uriEnd } else u
      { u with queriesStart := omitted }
  | .fragment =>
      { u with uriEnd := min u.fragmentStart u.uriEnd, fragmentStart := omitted }

/-- `has_scheme`, `has_username` and so on. -/
def has (comp : Components) (u : Offsets) : Bool :=
  match comp with
  | .scheme => u.schemeEnd != omitted
  | .username => u.authorityStart != omitted
  | .password => u.passwordStart != omitted
  | .host => u.hostStart != omitted
  | .port => u.portStart != omitted
  | .path => u.authorityEnd != omitted
  | .queries => u.queriesStart != omitted
  | .fragment => u.fragmentStart != omitted

def size (u : Offsets) : UInt32 := if u.uriEnd = omitted then 0 else u.uriEnd

/-- `view(beg, size)`. -/
def text (u : Offsets) (beg size : UInt32) : List Char :=
  (u.uriBeg.drop beg.toNat).take size.toNat

/-- `get_scheme`, `get_username` and so on. -/
def get (comp : Components) (u : Offsets) : List Char :=
  if u.has comp then
    match comp with
    | .scheme => u.text 0 (min u.schemeEnd u.size)
    | .username =>
        u.text u.authorityStart (min (u.passwordStart - 1) (u.hostStart - 1) - u.authorityStart)
    | .password =>
        u.text u.passwordStart
          (min (min u.hostStart u.portStart) u.authorityEnd - 1 - u.passwordStart)
    | .host =>
        u.text u.hostStart (min (min (u.portStart - 1) u.authorityEnd) u.size - u.hostStart)
    | .port => u.text u.portStart (min u.authorityEnd u.size - u.portStart)
    | .path =>
        u.text u.authorityEnd
          (min (min (u.queriesStart - 1) (u.fragmentStart - 1)) u.size - u.authorityEnd)
    | .queries => u.text u.queriesStart (min (u.fragmentStart - 1) u.size - u.queriesStart)
    | .fragment => u.text u.fragmentStart (u.uriEnd - u.fragmentStart)
  else []

/-- The components before parsing. -/
def start : Offsets :=
  ⟨[], omitted, omitted, omitted, omitted, omitted, omitted, omitted, omitted, omitted⟩

end Offsets

/-- The output of `parsing_uri_context_u32`, which has no texts of its own. -/
def offsetsOutput : Output Offsets where
  isModifiable := false
  isSegregated := false
  setValue := Offsets.set
  clear := Offsets.clear
  hasValue := Offsets.has
  view := Offsets.get
  append _ _ u := u
  edit _ _ u := pure u
  segments comp u := [u.get comp]
  editSegments _ _ u := u
  emplaceQuery _ u := u

/-! ## The contexts -/

/-- The kinds of contexts a URI is parsed into. -/
inductive ContextKind where
  | string
  | view
  | u32
  | segregated
  | segregatedView
  deriving DecidableEq

/-- The output of a kind. -/
def ContextKind.Out : ContextKind → Type
  | string | view => Strings
  | u32 => Offsets
  | segregated | segregatedView => Segregated

def ContextKind.output : (kind : ContextKind) → Output kind.Out
  | string => stringOutput
  | view => viewOutput
  | u32 => offsetsOutput
  | segregated => segregatedOutput
  | segregatedView => segregatedViewOutput

end Webpp.Uri
