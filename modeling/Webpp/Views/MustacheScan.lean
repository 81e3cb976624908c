import Webpp.Text.Splits
import Webpp.Views.MustacheParse

/-!
# The parser of a view

`parse` goes over its input by positions. It adds to the components that the view has already,
and leaves what it has read where it stops with an error. On a new view it does what is done to
the rest of the input in `parseStep`.
-/

namespace Webpp.Views

open Loop Text.Splits Webpp.Http

/-- What the parser can fault with: a read outside the input, or too few rounds. -/
inductive ScanFault where
  | outOfRange
  | exhausted
  deriving DecidableEq

/-- What an error message is about: a template of the view, or one that is rendered in it. -/
inductive ViewError where
  | scheme (error : ParseError)
  | rendering
  deriving DecidableEq

/-- `mustache_view`, with the children of the root component. -/
structure MustacheView where
  components : List Component := []
  errorMsg : Option ViewError := none

def MustacheView.hasScheme (v : MustacheView) : Bool := !v.components.isEmpty

def MustacheView.isValid (v : MustacheView) : Bool := v.errorMsg.isNone

/-! ## Reading the input -/

/-- `compare(pos, text.size(), text) == 0`. -/
def compareAt (input text : List Char) (pos : ℕ) : Except ScanFault Bool :=
  if input.length < pos then .error .outOfRange
  else .ok ((input.drop pos).take text.length == text)

/-- `at(pos)`, and `[pos]`. -/
def charAt (input : List Char) (pos : ℕ) : Except ScanFault Char :=
  match input[pos]? with
  | some c => .ok c
  | none => .error .outOfRange

/-- `substr(pos, count)`. -/
def substrAt (input : List Char) (pos count : ℕ) : Except ScanFault (List Char) :=
  if input.length < pos then .error .outOfRange else .ok ((input.drop pos).take count)

/-- The first of the texts that is at the position. -/
def whitespaceAt (input : List Char) (pos : ℕ) :
    List (List Char) → Except ScanFault (Option (List Char))
  | [] => .ok none
  | text :: texts => do
      if ← compareAt input text pos then return some text
      else whitespaceAt input pos texts

/-! ## The loop -/

/-- A section that is open, with the position behind its tag. -/
structure ScanSection where
  inverted : Bool
  name : List Char
  start : ℕ
  children : List Component

/-- The variables of `parse`. -/
structure ScanState where
  inputPosition : ℕ
  delimSet : DelimiterSet
  currentDelimiterIsBrace : Bool
  currentText : List Char
  sections : List ScanSection
  root : List Component

namespace ScanState

def push (s : ScanState) (comp : Component) : ScanState :=
  match s.sections with
  | [] => { s with root := s.root ++ [comp] }
  | sec :: secs => { s with sections := { sec with children := sec.children ++ [comp] } :: secs }

def processCurrentText (s : ScanState) : ScanState :=
  if s.currentText = [] then s else { s.push (.text s.currentText) with currentText := [] }

end ScanState

def ScanSection.component (sec : ScanSection) (sectionText : List Char) : Component :=
  if sec.inverted then .sectionBeginInverted sec.name sec.children
  else .sectionBegin sec.name sectionText sec.children

/-- How the loop ends: with the state, and with an error if there is one. -/
abbrev ScanFlow := Flow ScanState (ScanState × Option ParseError)

/-- What follows a tag that is not a set of delimiters. -/
def scanPush (input : List Char) (tagStart : ℕ) (s : ScanState) (comp : Component) :
    Except ScanFault ScanFlow :=
  match comp with
  | .sectionBegin name _ _ =>
      .ok (.next { s with sections := ⟨false, name, s.inputPosition, []⟩ :: s.sections })
  | .sectionBeginInverted name _ =>
      .ok (.next { s with sections := ⟨true, name, s.inputPosition, []⟩ :: s.sections })
  | .sectionEnd name =>
      match (s.push comp).sections with
      | [] => .ok (.done (s.push comp, some (.unopenedSection name)))
      | sec :: secs => do
          let sectionText ← substrAt input sec.start (tagStart - sec.start)
          return .next ({ s with sections := secs }.push (sec.component sectionText))
  | comp => .ok (.next (s.push comp))

/-- Whether the tag is one in three braces. -/
def scanBrace (input : List Char) (s : ScanState) : Except ScanFault Bool :=
  if s.currentDelimiterIsBrace && s.inputPosition + 2 != input.length then do
    let c ← charAt input (s.inputPosition + s.delimSet.begin.length)
    let brace ← charAt s.delimSet.begin 0
    return c == brace
  else .ok false

/-- The contents of a tag, and what follows them. -/
def scanContents (input : List Char) (s : ScanState) (isUnescapedVar : Bool) :
    Except ScanFault ScanFlow :=
  let tagStart := s.inputPosition
  let tagEnd := if isUnescapedVar then ['\x7d', '\x7d', '\x7d'] else s.delimSet.finish
  let contentsStart :=
    tagStart + s.delimSet.begin.length + if isUnescapedVar then 1 else 0
  match findFrom input tagEnd contentsStart with
  | none => .ok (.done (s, some .unclosedTag))
  | some tagLocationEnd => do
      let tagContents ← substrAt input contentsStart (tagLocationEnd - contentsStart)
      let tagContents := trim tagContents
      let s' := { s with inputPosition := tagLocationEnd + tagEnd.length }
      if tagContents.head? = some '=' then
        match parseSetDelimiterTag tagContents with
        | none => return .done (s, some .invalidSetDelimiter)
        | some delimSet =>
            return .next ({ s' with
              delimSet := delimSet, currentDelimiterIsBrace := delimSet.isDefault }.push
                (.setDelimiter delimSet))
      else scanPush input tagStart s' (parseTagContents isUnescapedVar tagContents)

/-- A tag, at its start. -/
def scanTag (input : List Char) (s : ScanState) : Except ScanFault ScanFlow := do
  scanContents input s (← scanBrace input s)

/-- One round of the loop. -/
def scanStep (input : List Char) (s : ScanState) : Except ScanFault ScanFlow := do
  if s.inputPosition = input.length then return .done (s.processCurrentText, none)
  else if ← compareAt input s.delimSet.begin s.inputPosition then
    scanTag input s.processCurrentText
  else
    match ← whitespaceAt input s.inputPosition whitespace with
    | some text =>
        return .next { s.processCurrentText.push (.text text) with
          inputPosition := s.inputPosition + text.length }
    | none => do
        let c ← charAt input s.inputPosition
        return .next { s with
          inputPosition := s.inputPosition + 1, currentText := s.currentText ++ [c] }

/-! ## The sections -/

mutual

/-- The walk that looks for sections without an end and removes the end tags, up to the first
error. -/
def walkSection : Component → Component × Option ParseError
  | .sectionBegin name sectionText children =>
      match checkSection name children with
      | .error e => (.sectionBegin name sectionText children, some e)
      | .ok _ =>
          let r := walkSections children
          (.sectionBegin name sectionText r.1.dropLast, r.2)
  | .sectionBeginInverted name children =>
      match checkSection name children with
      | .error e => (.sectionBeginInverted name children, some e)
      | .ok _ =>
          let r := walkSections children
          (.sectionBeginInverted name r.1.dropLast, r.2)
  | comp => (comp, none)

def walkSections : List Component → List Component × Option ParseError
  | [] => ([], none)
  | comp :: comps =>
      let r := walkSection comp
      match r.2 with
      | some e => (r.1 :: comps, some e)
      | none =>
          let rs := walkSections comps
          (r.1 :: rs.1, rs.2)

end

/-- The section in the rest of the input. -/
def ScanSection.opened (input : List Char) (sec : ScanSection) : OpenSection :=
  ⟨sec.inverted, sec.name, input.drop sec.start, sec.children⟩

/-- The root component, with the sections that are open in it. -/
def ScanState.tree (input : List Char) (s : ScanState) : List Component :=
  closeAll s.root (s.sections.map (ScanSection.opened input)) []

namespace MustacheView

/-- What follows the loop. -/
def finishParse (v : MustacheView) (input : List Char) (s : ScanState) :
    Option ParseError → MustacheView
  | some e => ⟨s.tree input, some (.scheme e)⟩
  | none =>
      let r := walkSections (s.tree input)
      ⟨r.1, (r.2.map ViewError.scheme).or v.errorMsg⟩

/-- `parse`, with the delimiters it leaves. -/
def parse (v : MustacheView) (input : List Char) (delimSet : DelimiterSet) :
    Except ScanFault (MustacheView × DelimiterSet) := do
  let r ← loop (scanStep input) .exhausted (input.length + 1)
    ⟨0, delimSet, delimSet.isDefault, [], [], v.components⟩
  return (v.finishParse input r.1 r.2, r.1.delimSet)

def scheme (v : MustacheView) (input : List Char) : Except ScanFault MustacheView :=
  (v.parse input {}).map Prod.fst

end MustacheView

/-! ## The rest of the input -/

/-- `parse` of the rest of the input, with the delimiters to start with. -/
def parseWith (delimSet : DelimiterSet) (input : List Char) :
    Except ParseError (List Component) := do
  let s ← loop parseStep .exhausted (input.length + 1)
    ⟨input, delimSet, delimSet.isDefault, [], [], []⟩
  checkComponents (closeAll s.root s.sections [])

namespace ScanState

/-- The variables with the rest of the input for the position. -/
def atRest (input : List Char) (s : ScanState) : ParseState :=
  ⟨input.drop s.inputPosition, s.delimSet, s.currentDelimiterIsBrace, s.currentText,
    s.sections.map (ScanSection.opened input), s.root⟩

/-- The positions are in the input, and three braces belong to the default delimiters. -/
structure Inside (input : List Char) (s : ScanState) : Prop where
  position : s.inputPosition ≤ input.length
  starts : ∀ sec ∈ s.sections, sec.start ≤ s.inputPosition
  braces : s.currentDelimiterIsBrace = true → s.delimSet = {}

variable {input : List Char} {s : ScanState}

theorem push_of_nil (h : s.sections = []) (comp : Component) :
    s.push comp = { s with root := s.root ++ [comp] } := by
  rw [push, h]

theorem push_of_cons {sec : ScanSection} {secs : List ScanSection} (h : s.sections = sec :: secs)
    (comp : Component) :
    s.push comp =
      { s with sections := { sec with children := sec.children ++ [comp] } :: secs } := by
  rw [push, h]

theorem atRest_push (comp : Component) :
    (s.push comp).atRest input = (s.atRest input).push comp := by
  rw [push, ParseState.push, atRest, atRest]
  cases s.sections <;> rfl

theorem atRest_processCurrentText :
    s.processCurrentText.atRest input = (s.atRest input).processCurrentText := by
  rw [processCurrentText, ParseState.processCurrentText]
  by_cases hnil : s.currentText = []
  · rw [if_pos hnil, if_pos (show (s.atRest input).currentText = [] from hnil)]
  · rw [if_neg hnil, if_neg (show (s.atRest input).currentText ≠ [] from hnil)]
    exact congrArg (fun p : ParseState => { p with currentText := [] })
      (atRest_push (.text s.currentText))

theorem push_inputPosition (comp : Component) :
    (s.push comp).inputPosition = s.inputPosition := by
  rw [push]
  cases s.sections <;> rfl

theorem processCurrentText_inputPosition :
    s.processCurrentText.inputPosition = s.inputPosition := by
  rw [processCurrentText]
  split
  · rfl
  · exact push_inputPosition (.text s.currentText)

theorem push_delimSet (comp : Component) : (s.push comp).delimSet = s.delimSet := by
  rw [push]
  cases s.sections <;> rfl

theorem processCurrentText_delimSet : s.processCurrentText.delimSet = s.delimSet := by
  rw [processCurrentText]
  split
  · rfl
  · exact push_delimSet (.text s.currentText)

theorem Inside.push (h : s.Inside input) (comp : Component) : (s.push comp).Inside input := by
  obtain ⟨hposition, hstarts, hbraces⟩ := h
  cases hsections : s.sections with
  | nil =>
      rw [push_of_nil hsections]
      exact ⟨hposition, hstarts, hbraces⟩
  | cons sec secs =>
      rw [hsections, List.forall_mem_cons] at hstarts
      rw [push_of_cons hsections]
      exact ⟨hposition, List.forall_mem_cons.mpr hstarts, hbraces⟩

theorem Inside.processCurrentText (h : s.Inside input) : s.processCurrentText.Inside input := by
  rw [ScanState.processCurrentText]
  split
  · exact h
  · obtain ⟨hposition, hstarts, hbraces⟩ := h.push (.text s.currentText)
    exact ⟨hposition, hstarts, hbraces⟩

theorem Inside.moved (h : s.Inside input) {pos : ℕ} (hle : s.inputPosition ≤ pos)
    (hpos : pos ≤ input.length) : ({ s with inputPosition := pos }).Inside input :=
  ⟨hpos, fun sec hsec => (h.starts sec hsec).trans hle, h.braces⟩

end ScanState

section Reads

variable {input : List Char} {pos : ℕ}

theorem compareAt_eq (text : List Char) (hpos : pos ≤ input.length) :
    compareAt input text pos = .ok (text.isPrefixOf (input.drop pos)) := by
  rw [compareAt, if_neg (Nat.not_lt.mpr hpos)]
  refine congrArg Except.ok (Bool.eq_iff_iff.mpr ?_)
  rw [beq_iff_eq, List.isPrefixOf_iff_prefix, List.prefix_iff_eq_take, eq_comm]

theorem whitespaceAt_eq (hpos : pos ≤ input.length) (texts : List (List Char)) :
    whitespaceAt input pos texts = .ok (texts.find? (·.isPrefixOf (input.drop pos))) := by
  induction texts with
  | nil => rfl
  | cons text texts ih =>
      rw [whitespaceAt, compareAt_eq text hpos, List.find?_cons]
      cases htext : text.isPrefixOf (input.drop pos) with
      | true => rfl
      | false => exact ih

theorem read_bind {α β : Type} (a : α) (f : α → Except ScanFault β) :
    (Except.ok a >>= f) = f a := rfl

theorem charAt_eq {c : Char} {rest : List Char} (h : input.drop pos = c :: rest) :
    charAt input pos = .ok c := by
  have hget : input[pos]? = some c := by rw [← List.head?_drop, h, List.head?_cons]
  rw [charAt, hget]

theorem substrAt_eq (hpos : pos ≤ input.length) (count : ℕ) :
    substrAt input pos count = .ok ((input.drop pos).take count) :=
  if_neg (Nat.not_lt.mpr hpos)

theorem findText_eq (pattern str : List Char) :
    findText pattern str =
      (find pattern str).map fun i => (str.take i, str.drop (i + pattern.length)) := by
  induction str with
  | nil =>
      rw [findText, find]
      split_ifs with hpattern
      · rw [hpattern]
        rfl
      · rfl
  | cons c str ih =>
      rw [findText, find]
      by_cases hprefix : pattern <+: c :: str
      · rw [if_pos (List.isPrefixOf_iff_prefix.mpr hprefix), if_pos hprefix, Option.map_some,
          List.take_zero, Nat.zero_add]
      · rw [if_neg (mt List.isPrefixOf_iff_prefix.mp hprefix), if_neg hprefix, ih]
        cases find pattern str with
        | none => rfl
        | some i =>
            simp only [Option.map_some, List.take_succ_cons, Nat.add_right_comm i 1,
              List.drop_succ_cons]

theorem findFrom_rest (pattern : List Char) (hpos : pos ≤ input.length) :
    findText pattern (input.drop pos) = (findFrom input pattern pos).map fun place =>
      ((input.drop pos).take (place - pos), input.drop (place + pattern.length)) := by
  rw [findText_eq, findFrom, if_neg (Nat.not_lt.mpr hpos), Option.map_map]
  congr 1
  funext i
  simp only [Function.comp_apply, Nat.add_sub_cancel_left, List.drop_drop, Nat.add_assoc]

end Reads

/-! ## The rounds -/

/-- The round over positions does what the one over the rest does. -/
inductive StepAgrees (input : List Char) :
    Except ScanFault ScanFlow → Except ParseError (Flow ParseState ParseState) → Prop where
  | next {s : ScanState} (h : s.Inside input) :
      StepAgrees input (.ok (.next s)) (.ok (.next (s.atRest input)))
  | done (s : ScanState) :
      StepAgrees input (.ok (.done (s, none))) (.ok (.done (s.atRest input)))
  | error (s : ScanState) (e : ParseError) :
      StepAgrees input (.ok (.done (s, some e))) (.error e)

section Rounds

variable {input : List Char} {s : ScanState}

theorem StepAgrees.next_eq {s : ScanState} {p : ParseState} (h : s.Inside input)
    (hp : s.atRest input = p) : StepAgrees input (.ok (.next s)) (.ok (.next p)) := by
  rw [← hp]
  exact .next h

theorem scanBrace_eq (h : s.Inside input)
    (hbegin : s.delimSet.begin <+: input.drop s.inputPosition) :
    scanBrace input s = .ok (s.currentDelimiterIsBrace &&
      (input.drop s.inputPosition).length != 2 &&
      ((input.drop s.inputPosition).drop s.delimSet.begin.length).head? ==
        s.delimSet.begin.head?) := by
  have hposition := h.position
  rw [scanBrace]
  cases hbrace : s.currentDelimiterIsBrace with
  | false => rfl
  | true =>
      rw [h.braces hbrace] at hbegin ⊢
      have hlength := hbegin.length_le
      rw [List.length_drop] at hlength ⊢
      rw [show (({} : DelimiterSet).begin).length = 2 from rfl] at hlength ⊢
      by_cases hend : s.inputPosition + 2 = input.length
      · have htwo : input.length - s.inputPosition = 2 := by omega
        simp [hend, htwo]
      · have htwo : input.length - s.inputPosition ≠ 2 := by omega
        have hrest : (input.drop s.inputPosition).drop 2 ≠ [] := by
          rw [List.drop_drop, ne_eq, List.drop_eq_nil_iff]
          omega
        obtain ⟨c, rest, hc⟩ := List.exists_cons_of_ne_nil hrest
        have hchar : charAt input (s.inputPosition + 2) = .ok c :=
          charAt_eq (by rw [← hc, List.drop_drop])
        have hne : (s.inputPosition + 2 != input.length) = true := bne_iff_ne.mpr hend
        have hne' : (input.length - s.inputPosition != 2) = true := bne_iff_ne.mpr htwo
        rw [hne, hne', hc, hchar]
        rfl

theorem scanPush_agrees (h : s.Inside input) {tagStart : ℕ} (htag : tagStart ≤ s.inputPosition)
    (hstarts : ∀ sec ∈ s.sections, sec.start ≤ tagStart) (comp : Component) :
    StepAgrees input (scanPush input tagStart s comp)
      (((s.atRest input).pushTag (input.drop tagStart) comp).map .next) := by
  have hopen : ∀ sec : ScanSection, sec.start = s.inputPosition →
      ({ s with sections := sec :: s.sections }).Inside input := fun sec hsec =>
    ⟨h.position, List.forall_mem_cons.mpr ⟨hsec.le, h.starts⟩, h.braces⟩
  have hpush : StepAgrees input (.ok (.next (s.push comp)))
      (.ok (.next ((s.atRest input).push comp))) :=
    .next_eq (h.push comp) (ScanState.atRest_push comp)
  cases comp with
  | sectionBegin name sectionText children => exact .next_eq (hopen _ rfl) rfl
  | sectionBeginInverted name children => exact .next_eq (hopen _ rfl) rfl
  | sectionEnd name =>
      rw [scanPush, ParseState.pushTag, ← ScanState.atRest_push]
      cases hsections : s.sections with
      | nil =>
          rw [ScanState.push_of_nil hsections]
          simp only [ScanState.atRest, hsections]
          exact .error _ _
      | cons sec secs =>
          rw [hsections, List.forall_mem_cons] at hstarts
          rw [ScanState.push_of_cons hsections]
          have hlength : (input.drop sec.start).length - (input.drop tagStart).length =
              tagStart - sec.start := by
            have hposition := h.position
            rw [List.length_drop, List.length_drop]
            omega
          have hread := substrAt_eq (hstarts.1.trans (htag.trans h.position))
            (tagStart - sec.start)
          simp only [ScanState.atRest, List.map_cons, hread, ScanSection.opened, hlength]
          have hclosed : ({ s with sections := secs }).Inside input :=
            ⟨h.position, fun sec' hsec' => (hstarts.2 sec' hsec').trans htag, h.braces⟩
          exact .next_eq (hclosed.push _) (ScanState.atRest_push _)
  | text text => exact hpush
  | variableTag name => exact hpush
  | unescapedVariable name => exact hpush
  | comment text => exact hpush
  | partialTag name => exact hpush
  | setDelimiter delimSet => exact hpush

/-- The contents of a tag in the rest of the input, once it is known what ends them. -/
def parseContents (s : ParseState) (isUnescapedVar : Bool) : Except ParseError ParseState :=
  match findText (if isUnescapedVar then ['\x7d', '\x7d', '\x7d'] else s.delimSet.finish)
      (if isUnescapedVar then (s.rest.drop s.delimSet.begin.length).drop 1
        else s.rest.drop s.delimSet.begin.length) with
  | none => .error .unclosedTag
  | some (tagContents, rest) =>
      if (trim tagContents).head? = some '=' then
        match parseSetDelimiterTag (trim tagContents) with
        | none => .error .invalidSetDelimiter
        | some delimSet =>
            .ok ({ s with rest := rest, delimSet := delimSet, braces := delimSet.isDefault }.push
              (.setDelimiter delimSet))
      else { s with rest := rest }.pushTag s.rest
        (parseTagContents isUnescapedVar (trim tagContents))

/-- Whether the tag in the rest of the input is one in three braces. -/
def parseBrace (s : ParseState) : Bool :=
  s.braces && s.rest.length != 2 &&
    (s.rest.drop s.delimSet.begin.length).head? == s.delimSet.begin.head?

theorem parseTag_eq (s : ParseState) : parseTag s = parseContents s (parseBrace s) := rfl

theorem contents_rest (pos length : ℕ) (isUnescapedVar : Bool) :
    (if isUnescapedVar then ((input.drop pos).drop length).drop 1
      else (input.drop pos).drop length) =
      input.drop (pos + length + if isUnescapedVar then 1 else 0) := by
  cases isUnescapedVar with
  | true => rw [if_pos rfl, if_pos rfl, List.drop_drop, List.drop_drop, Nat.add_assoc]
  | false => rw [if_neg Bool.false_ne_true, if_neg Bool.false_ne_true, List.drop_drop]; rfl

theorem scanContents_agrees (h : s.Inside input) (isUnescapedVar : Bool)
    (hcontents : s.inputPosition + s.delimSet.begin.length + (if isUnescapedVar then 1 else 0) ≤
      input.length) :
    StepAgrees input (scanContents input s isUnescapedVar)
      ((parseContents (s.atRest input) isUnescapedVar).map .next) := by
  have hle : s.inputPosition ≤
      s.inputPosition + s.delimSet.begin.length + if isUnescapedVar then 1 else 0 := by
    rw [Nat.add_assoc]
    exact Nat.le_add_right _ _
  rw [scanContents, parseContents]
  simp only [ScanState.atRest]
  rw [contents_rest, findFrom_rest _ hcontents]
  generalize s.inputPosition + s.delimSet.begin.length + (if isUnescapedVar then 1 else 0) =
    contentsStart at hcontents hle
  generalize (if isUnescapedVar then ['\x7d', '\x7d', '\x7d'] else s.delimSet.finish) = tagEnd
  cases hfind : findFrom input tagEnd contentsStart with
  | none => exact .error s _
  | some tagLocationEnd =>
      have hread := substrAt_eq hcontents (tagLocationEnd - contentsStart)
      simp only [Option.map_some, hread]
      rw [read_bind]
      generalize trim ((input.drop contentsStart).take (tagLocationEnd - contentsStart)) =
        tagContents
      have hend := add_length_le_of_findFrom hfind
      have hfound := (findFrom_eq_some_iff.mp hfind).1
      have hmoved : ({ s with inputPosition := tagLocationEnd + tagEnd.length }).Inside input :=
        h.moved (hle.trans (hfound.trans (Nat.le_add_right _ _))) hend
      by_cases hset : tagContents.head? = some '='
      · rw [if_pos hset, if_pos hset]
        cases parseSetDelimiterTag tagContents with
        | none => exact .error s _
        | some delimSet =>
            have hdelim : ({ s with
                inputPosition := tagLocationEnd + tagEnd.length, delimSet := delimSet,
                currentDelimiterIsBrace := delimSet.isDefault }).Inside input :=
              ⟨hmoved.position, hmoved.starts, fun hdefault => eq_of_beq hdefault⟩
            exact .next_eq (hdelim.push _) (ScanState.atRest_push _)
      · rw [if_neg hset, if_neg hset]
        exact scanPush_agrees hmoved (hle.trans (hfound.trans
          (Nat.le_add_right _ _))) h.starts _

theorem scanTag_agrees (h : s.Inside input)
    (hbegin : s.delimSet.begin <+: input.drop s.inputPosition) :
    StepAgrees input (scanTag input s) ((parseTag (s.atRest input)).map .next) := by
  have hlength := hbegin.length_le
  rw [List.length_drop] at hlength
  rw [scanTag, scanBrace_eq h hbegin, parseTag_eq]
  refine scanContents_agrees h (parseBrace (s.atRest input)) ?_
  by_cases hbrace : parseBrace (s.atRest input) = true
  · rw [if_pos hbrace]
    simp only [parseBrace, ScanState.atRest, Bool.and_eq_true] at hbrace
    obtain ⟨⟨hbrace, -⟩, hhead⟩ := hbrace
    rw [h.braces hbrace] at hhead hlength ⊢
    have hrest : (input.drop s.inputPosition).drop 2 ≠ [] := by
      intro hnil
      rw [show ({} : DelimiterSet).begin.length = 2 from rfl, hnil] at hhead
      cases hhead
    rw [List.drop_drop, ne_eq, List.drop_eq_nil_iff, Nat.not_le] at hrest
    exact hrest
  · rw [if_neg hbrace]
    have hposition := h.position
    omega

theorem scanStep_agrees (h : s.Inside input) :
    StepAgrees input (scanStep input s) (parseStep (s.atRest input)) := by
  rw [scanStep, parseStep]
  by_cases hend : s.inputPosition = input.length
  · have hrest : (s.atRest input).rest = [] := List.drop_eq_nil_of_le hend.ge
    rw [if_pos hend, hrest, ← ScanState.atRest_processCurrentText]
    exact .done _
  · rw [if_neg hend]
    have hlt : s.inputPosition < input.length := lt_of_le_of_ne h.position hend
    obtain ⟨c, rest, hc⟩ := List.exists_cons_of_ne_nil
      (show input.drop s.inputPosition ≠ [] by rw [ne_eq, List.drop_eq_nil_iff]; omega)
    have hrest : (s.atRest input).rest = c :: rest := hc
    have hbegin_eq : (s.atRest input).delimSet = s.delimSet := rfl
    rw [hrest, hbegin_eq, compareAt_eq _ h.position, hc, read_bind]
    dsimp only
    by_cases hbegin : s.delimSet.begin.isPrefixOf (c :: rest) = true
    · have hprocessed := h.processCurrentText
      rw [if_pos hbegin, if_pos hbegin, ← ScanState.atRest_processCurrentText]
      refine scanTag_agrees hprocessed ?_
      rw [ScanState.processCurrentText_delimSet, ScanState.processCurrentText_inputPosition, hc]
      exact List.isPrefixOf_iff_prefix.mp hbegin
    · rw [if_neg hbegin, if_neg hbegin, whitespaceAt_eq h.position, hc, read_bind]
      cases hspace : whitespace.find? (·.isPrefixOf (c :: rest)) with
      | some text =>
          have hprefix : text <+: c :: rest :=
            List.isPrefixOf_iff_prefix.mp
              (List.find?_some (p := fun text : List Char => text.isPrefixOf (c :: rest)) hspace)
          have hlength := hprefix.length_le
          rw [← hc, List.length_drop] at hlength
          refine .next_eq ((h.processCurrentText.push _).moved ?_ ?_) ?_
          · rw [ScanState.push_inputPosition, ScanState.processCurrentText_inputPosition]
            exact Nat.le_add_right _ _
          · omega
          · rw [← ScanState.atRest_processCurrentText, ← ScanState.atRest_push]
            simp only [ScanState.atRest, List.drop_drop, ← hc]
      | none =>
          rw [charAt_eq hc, read_bind]
          have hmoved := h.moved (Nat.le_succ _) (Nat.succ_le_of_lt hlt)
          have hread : ({ s with
              inputPosition := s.inputPosition + 1,
              currentText := s.currentText ++ [c] }).Inside input :=
            ⟨hmoved.position, hmoved.starts, hmoved.braces⟩
          refine .next_eq hread ?_
          have hnext : input.drop (s.inputPosition + 1) = rest := by
            rw [← List.drop_drop, hc, List.drop_succ_cons, List.drop_zero]
          simp only [ScanState.atRest, hnext]

/-- The loops end alike. -/
inductive LoopAgrees (input : List Char) :
    Except ScanFault (ScanState × Option ParseError) → Except ParseError ParseState → Prop where
  | done (s : ScanState) : LoopAgrees input (.ok (s, none)) (.ok (s.atRest input))
  | error (s : ScanState) (e : ParseError) : LoopAgrees input (.ok (s, some e)) (.error e)
  | exhausted : LoopAgrees input (.error .exhausted) (.error .exhausted)

theorem loop_agrees (h : s.Inside input) (n : ℕ) :
    LoopAgrees input (loop (scanStep input) .exhausted n s)
      (loop parseStep .exhausted n (s.atRest input)) := by
  induction n generalizing s with
  | zero => exact .exhausted
  | succ n ih =>
      have hround := scanStep_agrees h
      generalize hleft : scanStep input s = left at hround
      generalize hright : parseStep (s.atRest input) = right at hround
      cases hround with
      | next hnext =>
          rw [loop_of_next hleft, loop_of_next hright]
          exact ih hnext
      | done s' =>
          rw [loop_of_done hleft, loop_of_done hright]
          exact .done s'
      | error s' e =>
          rw [loop_of_done hleft, loop_of_error hright]
          exact .error s' e

end Rounds

/-! ## The sections of a new view -/

/-- The walk that goes on editing up to an error, and the one that gives the tree or the
error. -/
inductive WalkAgrees {α : Type} : α × Option ParseError → Except ParseError α → Prop where
  | done (a : α) : WalkAgrees (a, none) (.ok a)
  | error (a : α) (e : ParseError) : WalkAgrees (a, some e) (.error e)

theorem WalkAgrees.map {α β : Type} {r : α × Option ParseError} {x : Except ParseError α}
    (h : WalkAgrees r x) (f : α → β) : WalkAgrees (f r.1, r.2) (x >>= fun a => pure (f a)) := by
  cases h with
  | done a => exact .done (f a)
  | error a e => exact .error (f a) e

mutual

theorem walkSection_agrees (comp : Component) :
    WalkAgrees (walkSection comp) (checkComponent comp) := by
  match comp with
  | .sectionBegin name sectionText children =>
      rw [walkSection, checkComponent]
      cases checkSection name children with
      | error e => exact .error _ e
      | ok children' =>
          exact (walkSections_agrees children).map fun children =>
            Component.sectionBegin name sectionText children.dropLast
  | .sectionBeginInverted name children =>
      rw [walkSection, checkComponent]
      cases checkSection name children with
      | error e => exact .error _ e
      | ok children' =>
          exact (walkSections_agrees children).map fun children =>
            Component.sectionBeginInverted name children.dropLast
  | .text _ | .variableTag _ | .unescapedVariable _ | .sectionEnd _ | .comment _
  | .partialTag _ | .setDelimiter _ => exact .done _

theorem walkSections_agrees (comps : List Component) :
    WalkAgrees (walkSections comps) (checkComponents comps) := by
  match comps with
  | [] => exact .done []
  | comp :: comps =>
      rw [walkSections, checkComponents]
      have hcomp := walkSection_agrees comp
      generalize walkSection comp = r at hcomp ⊢
      generalize checkComponent comp = x at hcomp ⊢
      cases hcomp with
      | error comp' e => exact .error (comp' :: comps) e
      | done comp' => exact (walkSections_agrees comps).map fun comps => comp' :: comps

end

/-- What a new view is after `parse`. -/
inductive ParseAgrees : Except ScanFault (MustacheView × DelimiterSet) →
    Except ParseError (List Component) → Prop where
  | done (comps : List Component) (delimSet : DelimiterSet) :
      ParseAgrees (.ok (⟨comps, none⟩, delimSet)) (.ok comps)
  | error (comps : List Component) (delimSet : DelimiterSet) (e : ParseError) :
      ParseAgrees (.ok (⟨comps, some (.scheme e)⟩, delimSet)) (.error e)
  | exhausted : ParseAgrees (.error .exhausted) (.error .exhausted)

theorem ScanState.atRest_tree {input : List Char} (s : ScanState) :
    closeAll (s.atRest input).root (s.atRest input).sections [] = s.tree input := rfl

theorem parse_new (input : List Char) (delimSet : DelimiterSet) :
    ParseAgrees (({} : MustacheView).parse input delimSet) (parseWith delimSet input) := by
  have hstart : ScanState.Inside input ⟨0, delimSet, delimSet.isDefault, [], [], []⟩ :=
    ⟨Nat.zero_le _, fun sec hsec => absurd hsec List.not_mem_nil,
      fun hdefault => eq_of_beq hdefault⟩
  have hloop := loop_agrees hstart (input.length + 1)
  rw [MustacheView.parse, parseWith]
  have hrest : ScanState.atRest input ⟨0, delimSet, delimSet.isDefault, [], [], []⟩ =
      ⟨input, delimSet, delimSet.isDefault, [], [], []⟩ := by
    rw [ScanState.atRest, List.drop_zero, List.map_nil]
  rw [hrest] at hloop
  generalize loop (scanStep input) .exhausted (input.length + 1)
    (⟨0, delimSet, delimSet.isDefault, [], [], []⟩ : ScanState) = left at hloop ⊢
  generalize loop parseStep .exhausted (input.length + 1)
    (⟨input, delimSet, delimSet.isDefault, [], [], []⟩ : ParseState) = right at hloop ⊢
  cases hloop with
  | exhausted => exact .exhausted
  | error s e => exact .error _ _ e
  | done s =>
      have hwalk := walkSections_agrees (s.tree input)
      change ParseAgrees (.ok (({} : MustacheView).finishParse input s none, s.delimSet))
        (checkComponents (closeAll (s.atRest input).root (s.atRest input).sections []))
      rw [s.atRest_tree, MustacheView.finishParse]
      generalize walkSections (s.tree input) = r at hwalk ⊢
      generalize checkComponents (s.tree input) = x at hwalk ⊢
      cases hwalk with
      | done comps => exact .done comps s.delimSet
      | error comps e => exact .error comps s.delimSet e

end Webpp.Views
