import Webpp.Foundation.Loop
import Webpp.Http.Cookie

/-!
# Templates and their data

Variables are named booleans, texts, lists of variables and functions. The names in a
template are looked up in a stack of them, the one that was pushed last first.

A template is parsed into a tree of components. Newlines, spaces and tabs are components of
their own, a section has those between its tags for children, and a tag may set other
delimiters for the tags behind it.
-/

namespace Webpp.Views

/-! ## The data of a template -/

/-- What cannot be rendered. -/
inductive RenderFault where
  /-- `items.front()` where there is no variable. -/
  | frontOfEmpty
  /-- The splitter stays before a name that starts with its delimiter. -/
  | endlessSplit
  /-- Partials that are nested without an end. -/
  | exhausted
  deriving DecidableEq

/-- `variable`, with its key. A lambda is known by its number; a partial is the text that it
returns. -/
inductive Variable where
  | bool (key : List Char) (val : Bool)
  | lambda (key : List Char) (id : ℕ)
  | partialText (key text : List Char)
  | string (key str : List Char)
  | list (key : List Char) (items : List Variable)

namespace Variable

def key : Variable → List Char
  | bool key _ => key
  | lambda key _ => key
  | partialText key _ => key
  | string key _ => key
  | list key _ => key

mutual

/-- `get`: the variable with the key in the tree of lists. -/
def get (inputKey : List Char) : Variable → Option Variable
  | list key items => if key = inputKey then some (list key items) else getIn inputKey items
  | v => if v.key = inputKey then some v else none

/-- The loop of `get` over a list. -/
def getIn (inputKey : List Char) : List Variable → Option Variable
  | [] => none
  | item :: items =>
      match get inputKey item with
      | some var => some var
      | none => getIn inputKey items

end

def isFalse : Variable → Bool
  | bool _ val => val
  | list _ items => items.isEmpty
  | _ => true

def isNonEmptyList : Variable → Bool
  | list _ items => items.isEmpty
  | _ => false

def listValue : Variable → List Variable
  | list _ items => items
  | _ => []

end Variable

/-- The stack of variables, the last one first. -/
abbrev Context := List Variable

namespace Context

/-- A name without dots. -/
def getName (name : List Char) (ctx : Context) : Option Variable :=
  ctx.findSome? (Variable.get name)

/-- `x.y`: every name is looked up in the variable before it. -/
def getPath (names : List (List Char)) (ctx : Context) : Option Variable :=
  ctx.findSome? fun item => names.foldlM (fun var n => var.get n) item

def get (name : List Char) (ctx : Context) : Except RenderFault (Option Variable) :=
  if name = ['.'] then
    match ctx with
    | [] => .error .frontOfEmpty
    | item :: _ => .ok (some item)
  else if '.' ∈ name then
    if name.head? = some '.' then .error .endlessSplit
    else .ok (getPath (name.splitOn '.') ctx)
  else .ok (getName name ctx)

end Context

def htmlEscape (input : List Char) : List Char :=
  input.flatMap fun ch =>
    match ch with
    | '&' => ['&', 'a', 'm', 'p', ';']
    | '<' => ['&', 'l', 't', ';']
    | '>' => ['&', 'g', 't', ';']
    | '"' => ['&', 'q', 'u', 'o', 't', ';']
    | '\'' => ['&', 'a', 'p', 'o', 's', ';']
    | ch => [ch]

/-! ## Parsing -/

open Loop Webpp.Http

structure DelimiterSet where
  begin : List Char := ['\x7b', '\x7b']
  finish : List Char := ['\x7d', '\x7d']
  deriving DecidableEq

def DelimiterSet.isDefault (delimSet : DelimiterSet) : Bool := delimSet == {}

/-- A component, by the type of its tag. -/
inductive Component where
  | text (text : List Char)
  | variableTag (name : List Char)
  | unescapedVariable (name : List Char)
  | sectionBegin (name sectionText : List Char) (children : List Component)
  | sectionBeginInverted (name : List Char) (children : List Component)
  | sectionEnd (name : List Char)
  | comment (text : List Char)
  | partialTag (name : List Char)
  | setDelimiter (delimSet : DelimiterSet)

/-- The errors of the parser, with the name that is part of their messages. -/
inductive ParseError where
  | unclosedTag
  | invalidSetDelimiter
  | unopenedSection (name : List Char)
  | unclosedSection (name : List Char)
  | exhausted
  deriving DecidableEq

/-! ## Tags -/

/-- `find`: what is before the first occurrence of the text, and what is behind it. -/
def findText (pattern : List Char) : List Char → Option (List Char × List Char)
  | [] => if pattern = [] then some ([], []) else none
  | c :: str =>
      if pattern.isPrefixOf (c :: str) then some ([], (c :: str).drop pattern.length)
      else (findText pattern str).map fun r => (c :: r.1, r.2)

def isSetDelimiterValid (delimiter : List Char) : Bool :=
  delimiter.all fun ch => !(ch == '=' || isWhitespace ch)

/-- `parse_set_delimiter_tag`: `=X X=`. -/
def parseSetDelimiterTag (contents : List Char) : Option DelimiterSet :=
  if contents.length < 5 ∨ contents.getLast? ≠ some '=' then none
  else
    let contents := trim (contents.drop 1).dropLast
    let begin := contents.takeWhile (· != ' ')
    let finish := (contents.dropWhile (· != ' ')).dropWhile (· == ' ')
    if ' ' ∉ contents then none
    else if !isSetDelimiterValid begin || !isSetDelimiterValid finish then none
    else some ⟨begin, finish⟩

/-- `parse_tag_contents`. The children of a section come later. -/
def parseTagContents (isUnescapedVar : Bool) (contents : List Char) : Component :=
  if isUnescapedVar then .unescapedVariable contents
  else
    match contents with
    | [] => .variableTag []
    | '#' :: name => .sectionBegin (trim name) [] []
    | '^' :: name => .sectionBeginInverted (trim name) []
    | '/' :: name => .sectionEnd (trim name)
    | '>' :: name => .partialTag (trim name)
    | '&' :: name => .unescapedVariable (trim name)
    | '!' :: text => .comment (trim text)
    | contents => .variableTag contents

/-! ## The loop -/

/-- A section that is open: the text behind its tag, and its children so far. -/
structure OpenSection where
  inverted : Bool
  name : List Char
  start : List Char
  children : List Component

/-- The variables of `parse`. The sections that are open come innermost first. -/
structure ParseState where
  rest : List Char
  delimSet : DelimiterSet
  braces : Bool
  currentText : List Char
  sections : List OpenSection
  root : List Component

/-- `sections.back()->children.push_back(comp)`. -/
def ParseState.push (s : ParseState) (comp : Component) : ParseState :=
  match s.sections with
  | [] => { s with root := s.root ++ [comp] }
  | sec :: secs => { s with sections := { sec with children := sec.children ++ [comp] } :: secs }

def ParseState.processCurrentText (s : ParseState) : ParseState :=
  if s.currentText = [] then s else { s.push (.text s.currentText) with currentText := [] }

/-- The component of a section, once its children are known. -/
def OpenSection.component (sec : OpenSection) (sectionText : List Char) : Component :=
  if sec.inverted then .sectionBeginInverted sec.name sec.children
  else .sectionBegin sec.name sectionText sec.children

/-- The innermost section becomes a child of the one around it. -/
def ParseState.close (s : ParseState) (sec : OpenSection) (secs : List OpenSection)
    (sectionText : List Char) : ParseState :=
  { s with sections := secs }.push (sec.component sectionText)

/-- The end of a tag that is not a set of delimiters. -/
def ParseState.pushTag (s : ParseState) (tagStart : List Char) (comp : Component) :
    Except ParseError ParseState :=
  match comp with
  | .sectionBegin name _ _ =>
      .ok { s with sections := ⟨false, name, s.rest, []⟩ :: s.sections }
  | .sectionBeginInverted name _ =>
      .ok { s with sections := ⟨true, name, s.rest, []⟩ :: s.sections }
  | .sectionEnd name =>
      match (s.push comp).sections with
      | [] => .error (.unopenedSection name)
      | sec :: secs =>
          .ok (s.close sec secs (sec.start.take (sec.start.length - tagStart.length)))
  | comp => .ok (s.push comp)

/-- A tag, at its start. -/
def parseTag (s : ParseState) : Except ParseError ParseState :=
  let tagStart := s.rest
  let contents := tagStart.drop s.delimSet.begin.length
  let isUnescapedVar :=
    s.braces && tagStart.length != 2 && contents.head? == s.delimSet.begin.head?
  let tagEnd := if isUnescapedVar then ['\x7d', '\x7d', '\x7d'] else s.delimSet.finish
  match findText tagEnd (if isUnescapedVar then contents.drop 1 else contents) with
  | none => .error .unclosedTag
  | some (tagContents, rest) =>
      let tagContents := trim tagContents
      if tagContents.head? = some '=' then
        match parseSetDelimiterTag tagContents with
        | none => .error .invalidSetDelimiter
        | some delimSet =>
            .ok ({ s with rest := rest, delimSet := delimSet, braces := delimSet.isDefault }.push
              (.setDelimiter delimSet))
      else { s with rest := rest }.pushTag tagStart (parseTagContents isUnescapedVar tagContents)

def whitespace : List (List Char) := [['\r', '\n'], ['\n'], ['\r'], [' '], ['\t']]

/-- One round of the loop: a tag, a whitespace or one character. -/
def parseStep (s : ParseState) : Except ParseError (Flow ParseState ParseState) :=
  match s.rest with
  | [] => .ok (.done s.processCurrentText)
  | c :: rest =>
      if s.delimSet.begin.isPrefixOf s.rest then
        (parseTag s.processCurrentText).map .next
      else
        match whitespace.find? (·.isPrefixOf s.rest) with
        | some text =>
            .ok (.next { s.processCurrentText.push (.text text) with
              rest := s.rest.drop text.length })
        | none => .ok (.next { s with rest := rest, currentText := s.currentText ++ [c] })

/-! ## The sections -/

/-- The end tag of a section, which is its last child. -/
def checkSection (name : List Char) (children : List Component) :
    Except ParseError (List Component) :=
  match children.getLast? with
  | some (.sectionEnd last) =>
      if last = name then .ok children.dropLast else .error (.unclosedSection name)
  | _ => .error (.unclosedSection name)

mutual

/-- The walk that looks for sections without an end and removes the end tags. The children
of a section are checked after it. -/
def checkComponent : Component → Except ParseError Component
  | .sectionBegin name sectionText children => do
      let _ ← checkSection name children
      let children ← checkComponents children
      return .sectionBegin name sectionText children.dropLast
  | .sectionBeginInverted name children => do
      let _ ← checkSection name children
      let children ← checkComponents children
      return .sectionBeginInverted name children.dropLast
  | comp => .ok comp

def checkComponents : List Component → Except ParseError (List Component)
  | [] => .ok []
  | comp :: comps => do
      let comp ← checkComponent comp
      let comps ← checkComponents comps
      return comp :: comps

end

/-- The tree at the end of the input: sections that are still open are closed without an
end tag. The components are what is put behind the children of the innermost one. -/
def closeAll (root : List Component) : List OpenSection → List Component → List Component
  | [], comps => root ++ comps
  | sec :: secs, comps =>
      closeAll root secs [{ sec with children := sec.children ++ comps }.component []]

/-- The state before the loop. -/
def startParse (input : List Char) : ParseState := ⟨input, {}, true, [], [], []⟩

/-- `scheme`: the children of the root. -/
def parse (input : List Char) : Except ParseError (List Component) := do
  let s ← loop parseStep .exhausted (input.length + 1) (startParse input)
  checkComponents (closeAll s.root s.sections [])

end Webpp.Views

/-!
# Rendering templates

The walk over the components of a template appends to a buffer for the current line, which
is put out at the end of the line. What the walk does to the buffer never depends on what is
in it, so it is kept as a list of operations.
-/

namespace Webpp.Views

/-! ## The line buffer -/

/-- `line_buffer_state`. -/
structure LineBuffer where
  data : List Char := []
  containedSectionTag : Bool := false
  deriving DecidableEq

def isBlank (c : Char) : Bool := c == ' ' || c == '\t'

def LineBuffer.isEmptyOrContainsOnlyWhitespace (b : LineBuffer) : Bool := b.data.all isBlank

/-- What the walk does to the line buffer. A section that is not rendered does nothing. -/
inductive LineOp where
  | append (text : List Char)
  | sectionTag
  | skippedTag
  /-- `render_current_line`, with the text of the newline if there is one. -/
  | endLine (newline : Option (List Char))
  deriving DecidableEq

/-- `render_current_line`: what is given to the handler. -/
def renderCurrentLine (b : LineBuffer) (newline : Option (List Char)) : List Char :=
  if !b.containedSectionTag && !b.isEmptyOrContainsOnlyWhitespace then
    b.data ++ newline.getD []
  else []

/-- The output of the operations. -/
def output : LineBuffer → List LineOp → List Char
  | _, [] => []
  | b, .append text :: ops => output { b with data := b.data ++ text } ops
  | b, .sectionTag :: ops => output { b with containedSectionTag := true } ops
  | b, .skippedTag :: ops => output b ops
  | b, .endLine newline :: ops => renderCurrentLine b newline ++ output {} ops

/-! ## The walk -/

inductive RenderLambdaEscape where
  | escape
  | unescape
  | optional
  deriving DecidableEq

/-- The text of a lambda, with the delimiters behind it and whether there was an error. -/
structure LambdaResult where
  text : List Char
  delimSet : DelimiterSet
  error : Bool

/-- The functions that the user gives for lambdas. They get the text of a section, or an
empty one, and can render templates with the stack of variables and the delimiters. -/
abbrev Lambdas :=
  ℕ → Context → DelimiterSet → RenderLambdaEscape → List Char → Except RenderFault LambdaResult

/-- No lambdas. -/
def noLambdas : Lambdas := fun _ _ _ _ _ => .error .exhausted

/-- What the walk changes: the operations on the line buffer so far, the delimiters for
lambdas, and whether the view has an error message. -/
structure RenderState where
  ops : List LineOp := []
  delimSet : DelimiterSet := {}
  error : Bool := false

def RenderState.add (s : RenderState) (ops : List LineOp) : RenderState :=
  { s with ops := s.ops ++ ops }

inductive WalkControl where
  | walk
  | stop
  | skip
  deriving DecidableEq

/-- A component's text that ends a line. -/
def isNewline (text : List Char) : Bool :=
  text == ['\r', '\n'] || text == ['\n'] || text == ['\r']

/-- Text and newlines. -/
def textOp (text : List Char) : LineOp :=
  if isNewline text then .endLine (some text) else .append text

def renderLambda (L : Lambdas) (ctx : Context) (id : ℕ) (mode : RenderLambdaEscape)
    (text : List Char) (s : RenderState) : Except RenderFault (WalkControl × RenderState) := do
  let s := s.add [.endLine none]
  let r ← L id ctx s.delimSet mode text
  let error := s.error || r.error
  return (if error then .stop else .walk,
    { s.add [.append r.text] with delimSet := r.delimSet, error := error })

/-- `render_variable`, on a variable that is found. -/
def renderVariable (L : Lambdas) (ctx : Context) (var : Variable) (escaped : Bool)
    (s : RenderState) : Except RenderFault (WalkControl × RenderState) :=
  match var with
  | .string _ str => .ok (.walk, s.add [.append (if escaped then htmlEscape str else str)])
  | .lambda _ id => renderLambda L ctx id (if escaped then .escape else .unescape) [] s
  | _ => .ok (.walk, s)

/-- A variable and an unescaped one. -/
def renderVariableTag (L : Lambdas) (ctx : Context) (name : List Char) (escaped : Bool)
    (s : RenderState) : Except RenderFault (WalkControl × RenderState) := do
  match ← ctx.get name with
  | some var => renderVariable L ctx var escaped s
  | none => return (.walk, s)

/-- The stacks that `render_section` walks over the children with, in their order. -/
def sectionContexts (ctx : Context) : Option Variable → List Context
  | some var =>
      if var.isNonEmptyList then var.listValue.map fun item => item :: ctx else [var :: ctx]
  | none => [ctx]

/-- `render_section`; `walkChildren` is its walk over the children. -/
def renderSection (walkChildren : Context → RenderState → Except RenderFault RenderState)
    (contexts : List Context) (s : RenderState) : Except RenderFault RenderState :=
  match contexts with
  | [] => .ok s
  | ctx :: contexts => do
      let s ← walkChildren ctx (s.add [.sectionTag])
      renderSection walkChildren contexts (s.add [.sectionTag])

/-- The text of a partial, if the variable has one. -/
def partialResult : Option Variable → Option (List Char)
  | some (.partialText _ text) => some text
  | some (.string _ str) => some str
  | _ => none

/-- A template that is rendered with the same line buffer: whether it has no error, and the
state with this view's own error. -/
abbrev PartialRenderer :=
  List Char → Context → RenderState → Except RenderFault (Bool × RenderState)

mutual

def renderComponent (L : Lambdas) (renderPartial : PartialRenderer) (ctx : Context)
    (s : RenderState) : Component → Except RenderFault (WalkControl × RenderState)
  | .text text => .ok (.walk, s.add [textOp text])
  | .variableTag name => renderVariableTag L ctx name true s
  | .unescapedVariable name => renderVariableTag L ctx name false s
  | .sectionBegin name sectionText children => do
      match ← ctx.get name with
      | some (.lambda _ id) =>
          let r ← renderLambda L ctx id .optional sectionText s
          return (if r.1 = .stop then .stop else .skip, r.2)
      | some var =>
          if var.isFalse then return (.skip, s.add [.skippedTag])
          else
            let s ← renderSection
              (fun ctx s => walkChildren L renderPartial ctx s children)
              (sectionContexts ctx (some var)) s
            return (.skip, s)
      | none => return (.skip, s.add [.skippedTag])
  | .sectionBeginInverted name children => do
      let var ← ctx.get name
      if var.all Variable.isFalse then
        let s ← renderSection
          (fun ctx s => walkChildren L renderPartial ctx s children) (sectionContexts ctx var)
          (s.add [.skippedTag])
        return (.skip, s)
      else return (.skip, s.add [.skippedTag])
  | .partialTag name =>
      match partialResult (ctx.getName name) with
      | some text => do
          let r ← renderPartial text ctx s
          return (if r.1 then .walk else .stop,
            { r.2 with error := r.2.error || !r.1 })
      | none => .ok (.walk, s)
  | .setDelimiter delimSet => .ok (.walk, { s with delimSet := delimSet })
  | .sectionEnd _ => .ok (.walk, s)
  | .comment _ => .ok (.walk, s)

/-- `walk_children`, which ends at the first child that stops the walk. -/
def walkChildren (L : Lambdas) (renderPartial : PartialRenderer) (ctx : Context)
    (s : RenderState) : List Component → Except RenderFault RenderState
  | [] => .ok s
  | comp :: comps => do
      let r ← renderComponent L renderPartial ctx s comp
      if r.1 = .stop then return r.2
      else walkChildren L renderPartial ctx r.2 comps

end

/-- A partial, with partials nested at most `n` deep behind it. -/
def renderTemplate (L : Lambdas) : ℕ → PartialRenderer
  | 0, _, _, _ => .error .exhausted
  | n + 1, text, ctx, s =>
      match parse text with
      | .error _ => .ok (false, s)
      | .ok comps => do
          let t ← walkChildren L (renderTemplate L n) ctx { s with error := false } comps
          return (!t.error, { t with error := s.error })

/-- The operations of a view on the line buffer, the last line included. -/
def renderOps (L : Lambdas) (n : ℕ) (data : Context) (comps : List Component) :
    Except RenderFault (List LineOp) := do
  let s ← walkChildren L (renderTemplate L n) data {} comps
  return s.ops ++ [.endLine none]

/-- `render`, with partials nested at most `n` deep. -/
def render (L : Lambdas) (n : ℕ) (data : Context) (comps : List Component) :
    Except RenderFault (List Char) :=
  (renderOps L n data comps).map (output {})

end Webpp.Views
