import Webpp.Views.MustacheParse

/-!
# The lines of a template

The operations of a rendering are cut into pieces, at the ends of lines and before the text
of a lambda; the pieces up to a newline are a line. A line that has a tag of a section and
nothing else but spaces and tabs may be removed. The code removes every piece that has such
a tag or nothing else.
-/

/-!
## Templates without tags

A template without tags is parsed into its own text, and its rendering appends this text or
ends lines.
-/

namespace Webpp.Views

open Loop

variable {template : List Char} {s : ParseState}

/-- No tag begins in the template. -/
def Tagless (template : List Char) : Prop := ¬ ['\x7b', '\x7b'] <:+: template

/-- Whitespace between texts and at their ends; nothing is parsed with other delimiters. -/
structure TextOnly (template : List Char) (s : ParseState) (texts : List (List Char)) : Prop where
  delimSet : s.delimSet = {}
  sections : s.sections = []
  root : s.root = texts.map .text
  split : texts.flatten ++ s.currentText ++ s.rest = template

theorem push_of_root (h : s.sections = []) (comp : Component) :
    s.push comp = { s with root := s.root ++ [comp] } := by
  rw [ParseState.push, h]

theorem processCurrentText_textOnly {texts : List (List Char)} (h : TextOnly template s texts) :
    ∃ texts', TextOnly template s.processCurrentText texts' ∧
      s.processCurrentText.currentText = [] ∧ s.processCurrentText.rest = s.rest := by
  rw [ParseState.processCurrentText]
  split
  · rename_i hnil
    exact ⟨texts, h, hnil, rfl⟩
  · rw [push_of_root h.sections]
    refine ⟨texts ++ [s.currentText], ⟨h.delimSet, h.sections, ?_, ?_⟩, rfl, rfl⟩
    · rw [List.map_append, ← h.root]
      rfl
    · rw [List.flatten_append, List.flatten_singleton, List.append_nil]
      exact h.split

theorem parseStep_textOnly (htagless : Tagless template)
    {texts : List (List Char)} (h : TextOnly template s texts) :
    Sat (fun _ => False) (FlowSat
      (fun s' => (∃ texts, TextOnly template s' texts) ∧ s'.rest.length < s.rest.length)
      (fun s' => ∃ texts, TextOnly template s' texts ∧ s'.currentText = [] ∧ s'.rest = []))
      (parseStep s) := by
  obtain ⟨texts', h', hcurrent, hrest'⟩ := processCurrentText_textOnly h
  rw [parseStep]
  split
  · rename_i hnil
    exact ⟨texts', h', hcurrent, hrest'.trans hnil⟩
  · rename_i c rest hrest
    have hbegin : ¬ s.delimSet.begin.isPrefixOf s.rest = true := by
      rw [h.delimSet, List.isPrefixOf_iff_prefix]
      intro hstarts
      refine htagless (hstarts.isInfix.trans ?_)
      rw [← h.split]
      exact (List.suffix_append _ _).isInfix
    rw [if_neg hbegin]
    split
    · rename_i text htext
      have hfound := List.mem_of_find?_eq_some htext
      have hstarts : text <+: s.rest := List.isPrefixOf_iff_prefix.mp
        (List.find?_some (p := fun text : List Char => text.isPrefixOf s.rest) htext)
      have hne : text ≠ [] := by
        intro hnil
        rw [hnil] at hfound
        exact absurd hfound (by decide)
      have hsplit : text ++ s.rest.drop text.length = s.rest := by
        obtain ⟨behind, hbehind⟩ := hstarts
        rw [← hbehind, List.drop_left]
      refine ⟨⟨texts' ++ [text], ?_⟩, ?_⟩
      · rw [push_of_root h'.sections]
        refine ⟨h'.delimSet, h'.sections, ?_, ?_⟩
        · rw [List.map_append, ← h'.root]
          rfl
        · have hold := h'.split
          rw [hcurrent, hrest', List.append_nil] at hold
          rw [hcurrent, List.flatten_append, List.flatten_singleton, List.append_nil,
            List.append_assoc, hsplit]
          exact hold
      · have hpos := List.length_pos_iff.mpr hne
        have hle := hstarts.length_le
        simp only [List.length_drop]
        omega
    · refine ⟨⟨texts, h.delimSet, h.sections, h.root, ?_⟩, ?_⟩
      · have hold := h.split
        rw [hrest] at hold
        simpa using hold
      · rw [hrest]
        exact Nat.lt_succ_self _

theorem checkComponents_texts (texts : List (List Char)) :
    checkComponents (texts.map .text) = .ok (texts.map .text) := by
  induction texts with
  | nil => rfl
  | cons text texts ih =>
      rw [List.map_cons, checkComponents, ih]
      rfl

/-- A template without tags is parsed into its own text. -/
theorem parse_tagless (h : Tagless template) :
    ∃ texts : List (List Char), parse template = .ok (texts.map .text) ∧
      texts.flatten = template := by
  have hrun : Sat (fun _ => False)
      (fun s => ∃ texts, TextOnly template s texts ∧ s.currentText = [] ∧ s.rest = [])
      (loop parseStep .exhausted (template.length + 1) (startParse template)) := by
    refine loop_sat (fun s => ∃ texts, TextOnly template s texts) _ (fun s => s.rest.length)
      ⟨[], rfl, rfl, rfl, rfl⟩ ?_ (Nat.lt_succ_self _)
    intro s _ hs
    obtain ⟨texts, hs⟩ := hs
    exact parseStep_textOnly h hs
  obtain ⟨s, hs, texts, htexts, hcurrent, hrest⟩ := hrun.exists_ok
  refine ⟨texts, ?_, ?_⟩
  · rw [parse, hs]
    change checkComponents (closeAll s.root s.sections []) = _
    rw [htexts.sections, closeAll, List.append_nil, htexts.root, checkComponents_texts]
  · have hsplit := htexts.split
    rw [hcurrent, hrest, List.append_nil, List.append_nil] at hsplit
    exact hsplit

theorem walkChildren_texts (L : Lambdas) (renderPartial : PartialRenderer) (ctx : Context)
    (s : RenderState) (texts : List (List Char)) :
    walkChildren L renderPartial ctx s (texts.map .text) = .ok (s.add (texts.map textOp)) := by
  induction texts generalizing s with
  | nil =>
      rw [List.map_nil, List.map_nil, walkChildren, RenderState.add, List.append_nil]
  | cons text texts ih =>
      rw [List.map_cons, walkChildren, renderComponent]
      change walkChildren L renderPartial ctx (s.add [textOp text]) (texts.map .text) = _
      rw [ih]
      simp only [RenderState.add, List.append_assoc, List.map_cons, List.singleton_append]

theorem renderOps_texts (L : Lambdas) (n : ℕ) (data : Context) (texts : List (List Char)) :
    renderOps L n data (texts.map .text) = .ok (texts.map textOp ++ [.endLine none]) := by
  rw [renderOps, walkChildren_texts]
  rfl

end Webpp.Views

namespace Webpp.Views

/-! ## Pieces -/

/-- What is in the line buffer when `render_current_line` is called. Its piece of the line is
tagged also by sections that are not rendered. -/
structure Piece where
  buffer : LineBuffer := {}
  tagged : Bool := false
  newline : Option (List Char) := none
  deriving DecidableEq

namespace Piece

/-- The piece with its line break. -/
def full (p : Piece) : List Char := p.buffer.data ++ p.newline.getD []

def output (p : Piece) : List Char := renderCurrentLine p.buffer p.newline

/-- The piece is put out, or there is nothing in it. -/
def IsPut (p : Piece) : Prop :=
  p.full = [] ∨
    p.buffer.containedSectionTag = false ∧ p.buffer.isEmptyOrContainsOnlyWhitespace = false

theorem output_eq_full {p : Piece} (h : p.IsPut) : p.output = p.full := by
  rw [output, renderCurrentLine]
  split
  · rfl
  · rename_i hdropped
    rcases h with hnil | ⟨hsection, htext⟩
    · exact hnil.symm
    · rw [hsection, htext] at hdropped
      exact absurd rfl hdropped

theorem length_output_le (p : Piece) : p.output.length ≤ p.full.length := by
  rw [output, renderCurrentLine]
  split
  · exact Nat.le_refl _
  · exact Nat.zero_le _

theorem isPut_of_length {p : Piece} (h : p.output.length = p.full.length) : p.IsPut := by
  rw [output, renderCurrentLine] at h
  split at h
  · rename_i hput
    rw [Bool.and_eq_true, Bool.not_eq_true', Bool.not_eq_true'] at hput
    exact .inr hput
  · exact .inl (List.eq_nil_of_length_eq_zero h.symm)

theorem output_of_whitespace {p : Piece}
    (h : p.buffer.isEmptyOrContainsOnlyWhitespace = true) : p.output = [] := by
  rw [output, renderCurrentLine, h, if_neg]
  rw [Bool.not_true, Bool.and_false]
  exact Bool.false_ne_true

end Piece

/-- The pieces of the operations, where the first one has begun. -/
def pieces : Piece → List LineOp → List Piece
  | _, [] => []
  | p, .append text :: ops =>
      pieces { p with buffer := { p.buffer with data := p.buffer.data ++ text } } ops
  | p, .sectionTag :: ops =>
      pieces { p with buffer := { p.buffer with containedSectionTag := true }, tagged := true } ops
  | p, .skippedTag :: ops => pieces { p with tagged := true } ops
  | p, .endLine newline :: ops => { p with newline := newline } :: pieces {} ops

theorem output_pieces (p : Piece) (ops : List LineOp) :
    output p.buffer ops = (pieces p ops).flatMap Piece.output := by
  induction ops generalizing p with
  | nil => rfl
  | cons op ops ih =>
      cases op with
      | append text =>
          rw [output, pieces, ← ih]
      | sectionTag =>
          rw [output, pieces, ← ih]
      | skippedTag =>
          rw [output, pieces, ← ih]
      | endLine newline =>
          rw [output, pieces, List.flatMap_cons, ← ih]
          rfl

/-! ## Lines -/

abbrev Line := List Piece

/-- A line ends with its newline. -/
def splitLines : List Piece → List Line
  | [] => []
  | p :: ps =>
      if p.newline.isSome then [p] :: splitLines ps
      else
        match splitLines ps with
        | [] => [[p]]
        | line :: lines => (p :: line) :: lines

theorem flatten_splitLines (ps : List Piece) : (splitLines ps).flatten = ps := by
  induction ps with
  | nil => rfl
  | cons p ps ih =>
      rw [splitLines]
      split
      · rw [List.flatten_cons, ih]
        rfl
      · split
        · rename_i hnil
          rw [hnil] at ih
          rw [← ih]
          rfl
        · rename_i line lines hcons
          rw [hcons] at ih
          rw [← ih]
          rfl

namespace Line

/-- The line with its line break. -/
def full (line : Line) : List Char := line.flatMap Piece.full

def output (line : Line) : List Char := line.flatMap Piece.output

/-- A tag of a section, and otherwise only spaces and tabs. -/
def Standalone (line : Line) : Prop :=
  (∃ p ∈ line, p.tagged = true) ∧
    ∀ p ∈ line, p.buffer.isEmptyOrContainsOnlyWhitespace = true

/-- The line may be removed, or nothing of it is. -/
def Safe (line : Line) : Prop := line.Standalone ∨ ∀ p ∈ line, p.IsPut

theorem output_of_standalone {line : Line} (h : line.Standalone) : line.output = [] :=
  List.flatMap_eq_nil_iff.mpr fun p hp => Piece.output_of_whitespace (h.2 p hp)

theorem output_eq_full {line : Line} (h : ∀ p ∈ line, p.IsPut) : line.output = line.full :=
  List.flatMap_congr fun p hp => Piece.output_eq_full (h p hp)

theorem length_output_le (line : Line) : line.output.length ≤ line.full.length ∧
    (line.output.length = line.full.length → ∀ p ∈ line, p.IsPut) := by
  induction line with
  | nil => exact ⟨Nat.le_refl _, fun _ p hp => absurd hp List.not_mem_nil⟩
  | cons p line ih =>
      obtain ⟨hle, heq⟩ := ih
      have hp := p.length_output_le
      have houtput : output (p :: line) = p.output ++ output line := List.flatMap_cons
      have hfull : full (p :: line) = p.full ++ full line := List.flatMap_cons
      rw [houtput, hfull, List.length_append, List.length_append]
      refine ⟨Nat.add_le_add hp hle, fun h q hq => ?_⟩
      rcases List.mem_cons.mp hq with rfl | hq
      · exact Piece.isPut_of_length (by omega)
      · exact heq (by omega) q hq

end Line

/-! ## What may be removed -/

/-- The output has every line with its line break, but some of the standalone ones. -/
inductive Rendered : List Line → List Char → Prop
  | nil : Rendered [] []
  | keep {lines : List Line} {out : List Char} (line : Line) (h : Rendered lines out) :
      Rendered (line :: lines) (line.full ++ out)
  | remove {lines : List Line} {out : List Char} (line : Line) (hline : line.Standalone)
      (h : Rendered lines out) : Rendered (line :: lines) out

theorem Rendered.length_le {lines : List Line} {out : List Char} (h : Rendered lines out) :
    (lines.flatMap Line.output).length ≤ out.length ∧
      ((lines.flatMap Line.output).length = out.length → ∀ line ∈ lines, line.Safe) := by
  induction h with
  | nil => exact ⟨Nat.le_refl _, fun _ line hline => absurd hline List.not_mem_nil⟩
  | keep line h ih =>
      obtain ⟨hle, heq⟩ := ih
      obtain ⟨hline, hput⟩ := line.length_output_le
      rw [List.flatMap_cons, List.length_append, List.length_append]
      refine ⟨Nat.add_le_add hline hle, fun hlength l hl => ?_⟩
      rcases List.mem_cons.mp hl with rfl | hl
      · exact .inr (hput (by omega))
      · exact heq (by omega) l hl
  | remove line hline h ih =>
      obtain ⟨hle, heq⟩ := ih
      rw [List.flatMap_cons, Line.output_of_standalone hline, List.nil_append]
      refine ⟨hle, fun hlength l hl => ?_⟩
      rcases List.mem_cons.mp hl with rfl | hl
      · exact .inl hline
      · exact heq hlength l hl

theorem rendered_iff (lines : List Line) :
    Rendered lines (lines.flatMap Line.output) ↔ ∀ line ∈ lines, line.Safe := by
  constructor
  · intro h
    exact h.length_le.2 rfl
  · intro h
    induction lines with
    | nil => exact .nil
    | cons line lines ih =>
        have hrest := ih fun l hl => h l (List.mem_cons_of_mem _ hl)
        rw [List.flatMap_cons]
        rcases h line List.mem_cons_self with hline | hput
        · rw [Line.output_of_standalone hline, List.nil_append]
          exact .remove line hline hrest
        · rw [Line.output_eq_full hput]
          exact .keep line hrest

/-- The lines of a rendering. -/
def linesOf (ops : List LineOp) : List Line := splitLines (pieces {} ops)

theorem output_linesOf (ops : List LineOp) :
    output {} ops = (linesOf ops).flatMap Line.output := by
  have hpieces : output {} ops = (pieces {} ops).flatMap Piece.output := output_pieces {} ops
  calc output {} ops
      = (pieces {} ops).flatMap Piece.output := hpieces
    _ = (linesOf ops).flatten.flatMap Piece.output := by rw [linesOf, flatten_splitLines]
    _ = (linesOf ops).flatMap Line.output := by
        rw [← List.flatMap_id, List.flatMap_assoc]
        rfl

/-! ## Templates without tags -/

theorem full_pieces_texts (p : Piece) (hp : p.newline = none) (texts : List (List Char)) :
    (pieces p (texts.map textOp ++ [.endLine none])).flatMap Piece.full =
      p.buffer.data ++ texts.flatten := by
  induction texts generalizing p with
  | nil => simp [pieces, Piece.full]
  | cons text texts ih =>
      rw [List.map_cons, List.cons_append, textOp]
      split
      · rw [pieces, List.flatMap_cons, ih {} rfl]
        simp [Piece.full]
      · have happended := ih
          { p with buffer := { p.buffer with data := p.buffer.data ++ text } } hp
        rw [pieces, happended]
        simp

theorem not_tagged_texts (p : Piece) (hp : p.tagged = false) (texts : List (List Char)) :
    ∀ q ∈ pieces p (texts.map textOp ++ [.endLine none]), q.tagged = false := by
  induction texts generalizing p with
  | nil =>
      intro q hq
      rw [List.mem_singleton.mp hq]
      exact hp
  | cons text texts ih =>
      intro q hq
      rw [List.map_cons, List.cons_append, textOp] at hq
      split at hq
      · rcases List.mem_cons.mp hq with rfl | hq
        · exact hp
        · exact ih {} rfl q hq
      · exact ih { p with buffer := { p.buffer with data := p.buffer.data ++ text } } hp q hq

theorem output_texts {texts : List (List Char)}
    (h : ∀ line ∈ linesOf (texts.map textOp ++ [.endLine none]), line.Safe) :
    output {} (texts.map textOp ++ [.endLine none]) = texts.flatten := by
  have hline : ∀ line ∈ linesOf (texts.map textOp ++ [.endLine none]),
      line.output = line.full := by
    intro line hline
    rcases h line hline with ⟨⟨p, hp, htagged⟩, -⟩ | hput
    · have hmem : p ∈ pieces {} (texts.map textOp ++ [.endLine none]) := by
        rw [← flatten_splitLines (pieces {} _)]
        exact List.mem_flatten.mpr ⟨line, hline, hp⟩
      rw [not_tagged_texts {} rfl texts p hmem] at htagged
      cases htagged
    · exact Line.output_eq_full hput
  calc output {} (texts.map textOp ++ [.endLine none])
      = (linesOf (texts.map textOp ++ [.endLine none])).flatMap Line.full := by
        rw [output_linesOf]
        exact List.flatMap_congr hline
    _ = (linesOf (texts.map textOp ++ [.endLine none])).flatten.flatMap Piece.full := by
        rw [← List.flatMap_id, List.flatMap_assoc]
        rfl
    _ = texts.flatten := by
        rw [linesOf, flatten_splitLines]
        exact full_pieces_texts {} rfl texts

/-! ## Renderings -/

/-- A rendering removes standalone lines only, and a template without tags renders to
itself. -/
structure KeepsLines (L : Lambdas) (n : ℕ) (template : List Char) (data : Context) : Prop where
  lines : ∀ comps ops, parse template = .ok comps → renderOps L n data comps = .ok ops →
    Rendered (linesOf ops) (output {} ops)
  itself : Tagless template →
    ∃ comps, parse template = .ok comps ∧ render L n data comps = .ok template

/-- Lines that are not standalone have something other than spaces and tabs, and no tag of a
section whose children are rendered. -/
def SafeLines (L : Lambdas) (n : ℕ) (template : List Char) (data : Context) : Prop :=
  ∀ comps ops, parse template = .ok comps → renderOps L n data comps = .ok ops →
    ∀ line ∈ linesOf ops, line.Safe

theorem rendered_linesOf_iff (ops : List LineOp) :
    Rendered (linesOf ops) (output {} ops) ↔ ∀ line ∈ linesOf ops, line.Safe := by
  rw [output_linesOf]
  exact rendered_iff _

theorem keepsLines_iff (L : Lambdas) (n : ℕ) (template : List Char) (data : Context) :
    KeepsLines L n template data ↔ SafeLines L n template data := by
  constructor
  · intro h comps ops hcomps hops
    exact (rendered_linesOf_iff ops).mp (h.lines comps ops hcomps hops)
  · intro h
    refine ⟨fun comps ops hcomps hops => ?_, fun htagless => ?_⟩
    · exact (rendered_linesOf_iff ops).mpr (h comps ops hcomps hops)
    · obtain ⟨texts, hparse, htexts⟩ := parse_tagless htagless
      have hops := renderOps_texts L n data texts
      refine ⟨_, hparse, ?_⟩
      rw [render, hops, ← htexts, ← output_texts (h _ _ hparse hops)]
      rfl

/-- The blank line is removed. -/
theorem not_keepsLines_blank :
    ¬ ∀ (L : Lambdas) (n : ℕ) (template : List Char) (data : Context),
      KeepsLines L n template data := by
  intro h
  have hrendered := (h noLambdas 0 ['\n'] []).lines [.text ['\n']]
    [.endLine (some ['\n']), .endLine none] rfl rfl
  have hempty : output {} [.endLine (some ['\n']), .endLine none] = [] := by decide
  rw [hempty] at hrendered
  have hlength := hrendered.length_le.2 (by decide)
  rcases hlength [⟨{}, false, some ['\n']⟩] (by decide) with hline | hput
  · obtain ⟨⟨p, hp, htagged⟩, -⟩ := hline
    rw [List.mem_singleton.mp hp] at htagged
    cases htagged
  · rcases hput _ (List.mem_singleton.mpr rfl) with hfull | ⟨-, htext⟩
    · cases hfull
    · cases htext

end Webpp.Views
