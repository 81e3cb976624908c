import Webpp.Foundation.Margins
import Webpp.Foundation.Nesting
import Webpp.Views.MustacheParse

/-!
# The texts and tags of a template

A template is read from its start: up to the opening delimiter it is text, and behind it a tag
that goes on to the first closing delimiter. A tag that sets delimiters sets them for what
follows it. Tags that begin and end sections are brackets with the names of the sections.
-/

namespace Webpp.Views

open Margins (Blank Trimmed Padded)
open Nesting Webpp.Http

variable {delimSet : DelimiterSet} {contents : List Char}

/-- A tag without its delimiters. -/
inductive Tag where
  | variableTag (name : List Char)
  | unescapedVariable (name : List Char)
  | sectionBegin (inverted : Bool) (name : List Char)
  | sectionEnd (name : List Char)
  | comment (text : List Char)
  | partialTag (name : List Char)
  | setDelimiter (delimSet : DelimiterSet)

/-- A character of the text, or a tag. -/
inductive Item where
  | char (c : Char)
  | tag (tag : Tag)

/-! ## Tags -/

/-- The tags that have a character in front of the name. -/
def Tag.ofSigil : Char → List Char → Option Tag
  | '#', name => some (.sectionBegin false name)
  | '^', name => some (.sectionBegin true name)
  | '/', name => some (.sectionEnd name)
  | '>', name => some (.partialTag name)
  | '&', name => some (.unescapedVariable name)
  | '!', text => some (.comment text)
  | _, _ => none

/-- `=X X=`: two delimiters without whitespace and equals signs, with spaces between them and
whitespace around. -/
structure SetsDelimiters (contents : List Char) (delimSet : DelimiterSet) : Prop where
  begin_ne_nil : delimSet.begin ≠ []
  finish_ne_nil : delimSet.finish ≠ []
  begin_valid : ∀ c ∈ delimSet.begin, c ≠ '=' ∧ isWhitespace c = false
  finish_valid : ∀ c ∈ delimSet.finish, c ≠ '=' ∧ isWhitespace c = false
  exists_spaces : ∃ before behind n, Blank isWhitespace before ∧ Blank isWhitespace behind ∧
    contents = '=' :: (before ++ ((delimSet.begin ++
      (List.replicate (n + 1) ' ' ++ delimSet.finish)) ++ behind) ++ ['='])

/-- The tag that is written with the contents, in three braces or not. -/
inductive Spells (contents : List Char) : Bool → Tag → Prop where
  | setDelimiter {braces : Bool} {delimSet : DelimiterSet}
      (h : SetsDelimiters contents delimSet) : Spells contents braces (.setDelimiter delimSet)
  | inBraces (h : contents.head? ≠ some '=') :
      Spells contents true (.unescapedVariable contents)
  | variableTag (hset : contents.head? ≠ some '=')
      (h : ∀ c ∈ contents.head?, Tag.ofSigil c [] = none) :
      Spells contents false (.variableTag contents)
  | sigil {c : Char} {text name : List Char} {tag : Tag} (h : contents = c :: text)
      (hname : Padded isWhitespace name text) (htag : Tag.ofSigil c name = some tag) :
      Spells contents false tag

namespace DelimiterSet

/-- A tag in three braces, which the delimiters must leave room for. -/
def Braced (delimSet : DelimiterSet) (input : List Char) : Prop :=
  delimSet = {} ∧ ['\x7b', '\x7b', '\x7b'] <+: input

def opening (delimSet : DelimiterSet) (braces : Bool) : List Char :=
  if braces then ['\x7b', '\x7b', '\x7b'] else delimSet.begin

def closing (delimSet : DelimiterSet) (braces : Bool) : List Char :=
  if braces then ['\x7d', '\x7d', '\x7d'] else delimSet.finish

end DelimiterSet

/-- The delimiters behind a tag. -/
def Tag.after (delimSet : DelimiterSet) : Tag → DelimiterSet
  | .setDelimiter delimSet' => delimSet'
  | _ => delimSet

section Tags

variable (delimSet : DelimiterSet) (input : List Char)

/-- The input begins with a tag up to the first closing delimiter. -/
structure ClosedTag (braces : Bool) (body rest : List Char) : Prop where
  ne_nil : input ≠ []
  braced : braces = true ↔ delimSet.Braced input
  input_eq : input = delimSet.opening braces ++ (body ++ (delimSet.closing braces ++ rest))
  first : ∀ body' rest', body ++ (delimSet.closing braces ++ rest) =
    body' ++ (delimSet.closing braces ++ rest') → body.length ≤ body'.length

/-- The input begins with a tag that has no closing delimiter. -/
structure UnclosedTag : Prop where
  ne_nil : input ≠ []
  begins : delimSet.begin <+: input
  unclosed : ∀ braces body rest, (braces = true ↔ delimSet.Braced input) →
    input ≠ delimSet.opening braces ++ (body ++ (delimSet.closing braces ++ rest))

/-- The input begins with a tag that is to set delimiters and does not name two. -/
def MalformedTag : Prop :=
  ∃ braces body rest contents, ClosedTag delimSet input braces body rest ∧
    Padded isWhitespace contents body ∧ contents.head? = some '=' ∧
      ∀ delimSet', ¬ SetsDelimiters contents delimSet'

/-- The input begins with the tag, with whitespace around its contents. -/
def TagAt (tag : Tag) (rest : List Char) : Prop :=
  ∃ braces body contents, ClosedTag delimSet input braces body rest ∧
    Padded isWhitespace contents body ∧ Spells contents braces tag

end Tags

/-! ## Templates -/

/-- A piece of text at the start of an input: a character or a line break of two. -/
inductive TextUnit : List Char → List Char → Prop where
  | newline (rest : List Char) : TextUnit ['\r', '\n'] rest
  | char {c : Char} {rest : List Char} (h : c = '\r' → rest.head? ≠ some '\n') :
      TextUnit [c] rest

/-- The input is the items, written with the delimiters in force, in front of the rest. -/
inductive Reads : DelimiterSet → List Char → List Item → DelimiterSet → List Char → Prop where
  | nil (delimSet : DelimiterSet) (input : List Char) : Reads delimSet input [] delimSet input
  | text {delimSet delimSet' : DelimiterSet} {unit input rest : List Char} {items : List Item}
      (hunit : TextUnit unit input) (hbegin : ¬ delimSet.begin <+: unit ++ input)
      (h : Reads delimSet input items delimSet' rest) :
      Reads delimSet (unit ++ input) (unit.map .char ++ items) delimSet' rest
  | tag {delimSet delimSet' : DelimiterSet} {input input' rest : List Char} {items : List Item}
      {tag : Tag} (htag : TagAt delimSet input tag input')
      (h : Reads (tag.after delimSet) input' items delimSet' rest) :
      Reads delimSet input (.tag tag :: items) delimSet' rest

/-- The tags that begin and end sections are the brackets. -/
def Item.role : Item → Role (List Char)
  | .tag (.sectionBegin _ name) => .opens name
  | .tag (.sectionEnd name) => .closes name
  | _ => .other

section Templates

variable (delimSet : DelimiterSet) (input : List Char)

/-- Some tag has no closing delimiter. -/
def HasUnclosedTag : Prop :=
  ∃ items delimSet' rest, Reads delimSet input items delimSet' rest ∧ UnclosedTag delimSet' rest

/-- Some tag is to set delimiters and does not name two. -/
def HasMalformedTag : Prop :=
  ∃ items delimSet' rest, Reads delimSet input items delimSet' rest ∧ MalformedTag delimSet' rest

/-- The tags of the sections are not nested. -/
def HasImproperNesting : Prop :=
  ∃ items delimSet', Reads delimSet input items delimSet' [] ∧ ¬ Nested Item.role items

end Templates

/-! ## The tags that are parsed -/

section Find

variable {pattern str before behind : List Char}

theorem findText_of_some (h : findText pattern str = some (before, behind)) :
    str = before ++ (pattern ++ behind) ∧ ∀ before' behind', str = before' ++ (pattern ++ behind') →
      before.length ≤ before'.length := by
  induction str generalizing before with
  | nil =>
      rw [findText] at h
      split at h
      · rename_i hpattern
        rw [Option.some_inj, Prod.mk.injEq] at h
        rw [← h.1, ← h.2, hpattern]
        exact ⟨rfl, fun before' behind' _ => Nat.zero_le _⟩
      · cases h
  | cons c str ih =>
      rw [findText] at h
      split at h
      · rename_i hprefix
        obtain ⟨rest, hrest⟩ := List.isPrefixOf_iff_prefix.mp hprefix
        rw [Option.some_inj, Prod.mk.injEq, ← hrest, List.drop_left] at h
        rw [← h.1, ← h.2, hrest]
        exact ⟨rfl, fun before' behind' _ => Nat.zero_le _⟩
      · rename_i hprefix
        obtain ⟨⟨before₀, behind₀⟩, hfind, heq⟩ := Option.map_eq_some_iff.mp h
        rw [Prod.mk.injEq] at heq
        obtain ⟨rfl, rfl⟩ := heq
        obtain ⟨hstr, hfirst⟩ := ih hfind
        refine ⟨by rw [hstr, List.cons_append], fun before' behind' heq' => ?_⟩
        cases before' with
        | nil =>
            rw [heq', List.nil_append] at hprefix
            exact absurd (List.isPrefixOf_iff_prefix.mpr (List.prefix_append _ _)) hprefix
        | cons c' before' =>
            rw [List.cons_append, List.cons.injEq] at heq'
            exact Nat.succ_le_succ (hfirst before' behind' heq'.2)

theorem findText_of_none (h : findText pattern str = none) (before behind : List Char) :
    str ≠ before ++ (pattern ++ behind) := by
  induction str generalizing before with
  | nil =>
      rw [findText] at h
      split at h
      · cases h
      · rename_i hpattern
        intro heq
        have hnil := List.append_eq_nil_iff.mp heq.symm
        exact hpattern (List.append_eq_nil_iff.mp hnil.2).1
  | cons c str ih =>
      rw [findText] at h
      split at h
      · cases h
      · rename_i hprefix
        rw [Option.map_eq_none_iff] at h
        intro heq
        cases before with
        | nil =>
            rw [heq, List.nil_append] at hprefix
            exact hprefix (List.isPrefixOf_iff_prefix.mpr (List.prefix_append _ _))
        | cons c' before =>
            rw [List.cons_append, List.cons.injEq] at heq
            exact ih h before heq.2

theorem findText_eq_some (hstr : str = before ++ (pattern ++ behind))
    (hfirst : ∀ before' behind', str = before' ++ (pattern ++ behind') →
      before.length ≤ before'.length) : findText pattern str = some (before, behind) := by
  cases hfind : findText pattern str with
  | none => exact absurd hstr (findText_of_none hfind before behind)
  | some found =>
      obtain ⟨before', behind'⟩ := found
      obtain ⟨hstr', hfirst'⟩ := findText_of_some hfind
      have hlength := Nat.le_antisymm (hfirst' before behind hstr) (hfirst before' behind' hstr')
      obtain ⟨rfl, htail⟩ := List.append_inj (hstr'.symm.trans hstr) hlength
      rw [List.append_cancel_left htail]

end Find

theorem trim_eq_iff {core str : List Char} : trim str = core ↔ Padded isWhitespace core str :=
  Margins.padded_iff.symm

theorem spaces_of_trimmed {core : List Char} (hcore : Trimmed isWhitespace core)
    (hspace : ' ' ∈ core) :
    core.takeWhile (· != ' ') ≠ [] ∧
      (core.dropWhile (· != ' ')).dropWhile (· == ' ') ≠ [] ∧
      ∃ n, core = core.takeWhile (· != ' ') ++ (List.replicate (n + 1) ' ' ++
        (core.dropWhile (· != ' ')).dropWhile (· == ' ')) := by
  have hsplit := List.takeWhile_append_dropWhile (p := (· != ' ')) (l := core)
  have hsplit' := List.takeWhile_append_dropWhile (p := (· == ' ')) (l := core.dropWhile (· != ' '))
  have hspaces : (core.dropWhile (· != ' ')).takeWhile (· == ' ') = List.replicate
      ((core.dropWhile (· != ' ')).takeWhile (· == ' ')).length ' ' :=
    List.eq_replicate_length.mpr fun c hc =>
      eq_of_beq (List.mem_takeWhile_imp (p := (· == ' ')) hc)
  have hne : core.dropWhile (· != ' ') ≠ [] := by
    intro hnil
    have hall := List.dropWhile_eq_nil_iff.mp hnil ' ' hspace
    exact absurd hall (by decide)
  obtain ⟨c, tail, htail⟩ := List.exists_cons_of_ne_nil hne
  have hc : c = ' ' := by
    have hhead := Margins.head_dropWhile (· != ' ') core c (by rw [htail]; rfl)
    simpa using hhead
  subst hc
  rw [htail] at hsplit hspaces hsplit' ⊢
  rw [List.takeWhile_cons_of_pos (by rfl), List.length_cons] at hspaces
  rw [List.takeWhile_cons_of_pos (by rfl)] at hsplit'
  refine ⟨fun hnil => ?_, fun hnil => ?_, (tail.takeWhile (· == ' ')).length, ?_⟩
  · rw [hnil, List.nil_append] at hsplit
    have hhead := hcore.1 ' ' (by rw [← hsplit]; rfl)
    exact absurd hhead (by decide)
  · rw [hnil, List.append_nil, hspaces] at hsplit'
    have hlast := hcore.2 ' ' (by
      rw [← hsplit, ← hsplit', List.replicate_succ', ← List.append_assoc, List.getLast?_concat]
      rfl)
    exact absurd hlast (by decide)
  · rw [← hspaces, hsplit', hsplit]

theorem eq_between (hhead : contents.head? = some '=')
    (hlast : contents.getLast? = some '=') (hlength : 2 ≤ contents.length) :
    contents = '=' :: ((contents.drop 1).dropLast ++ ['=']) := by
  cases contents with
  | nil => cases hhead
  | cons c tail =>
      rw [List.head?_cons, Option.some_inj] at hhead
      have htail : tail ≠ [] := List.ne_nil_of_length_pos (Nat.le_of_succ_le_succ hlength)
      have hsplit := List.dropLast_append_getLast htail
      rw [List.getLast?_cons_of_ne_nil htail, List.getLast?_eq_some_getLast htail,
        Option.some_inj] at hlast
      rw [hlast] at hsplit
      rw [hhead, List.drop_succ_cons, List.drop_zero, hsplit]

theorem isSetDelimiterValid_iff (delimiter : List Char) :
    isSetDelimiterValid delimiter = true ↔
      ∀ c ∈ delimiter, c ≠ '=' ∧ isWhitespace c = false := by
  rw [isSetDelimiterValid, List.all_eq_true]
  refine forall₂_congr fun c _ => ?_
  rw [Bool.not_eq_true', Bool.or_eq_false_iff, beq_eq_false_iff_ne]

theorem SetsDelimiters.of_parse
    (hset : contents.head? = some '=') (h : parseSetDelimiterTag contents = some delimSet) :
    SetsDelimiters contents delimSet := by
  rw [parseSetDelimiterTag] at h
  split at h
  · cases h
  · rename_i hends
    push Not at hends
    obtain ⟨hlength, hlast⟩ := hends
    have hcontents := eq_between hset hlast (by omega)
    obtain ⟨hcore, before, behind, hbefore, hbehind, hmid⟩ :=
      Margins.padded_trim isWhitespace (contents.drop 1).dropLast
    change Trimmed isWhitespace (trim (contents.drop 1).dropLast) at hcore
    change (contents.drop 1).dropLast =
      before ++ (trim (contents.drop 1).dropLast ++ behind) at hmid
    rw [hmid] at hcontents
    dsimp only at h
    generalize trim (contents.drop 1).dropLast = core at h hcore hcontents
    split at h
    · cases h
    · rename_i hspace
      obtain ⟨hbegin, hfinish, n, hspaces⟩ := spaces_of_trimmed hcore (not_not.mp hspace)
      generalize core.takeWhile (· != ' ') = begin at h hbegin hspaces
      generalize (core.dropWhile (· != ' ')).dropWhile (· == ' ') = finish at h hfinish hspaces
      split at h
      · cases h
      · rename_i hvalid
        rw [Bool.or_eq_true, not_or, Bool.not_eq_true', Bool.not_eq_true', Bool.not_eq_false,
          Bool.not_eq_false, isSetDelimiterValid_iff, isSetDelimiterValid_iff] at hvalid
        cases h
        rw [hspaces] at hcontents
        exact ⟨hbegin, hfinish, hvalid.1, hvalid.2, before, behind, n, hbefore, hbehind, hcontents⟩

theorem SetsDelimiters.parse
    (h : SetsDelimiters contents delimSet) : parseSetDelimiterTag contents = some delimSet := by
  obtain ⟨hbegin, hfinish, hvalid, hfinishValid, before, behind, n, hbefore, hbehind,
    hcontents⟩ := h
  have hpos := List.length_pos_of_ne_nil hbegin
  have hpos' := List.length_pos_of_ne_nil hfinish
  have hlength : ¬ (contents.length < 5 ∨ contents.getLast? ≠ some '=') := by
    have hlast : contents.getLast? = some '=' := by
      rw [hcontents, ← List.cons_append, List.getLast?_concat]
    have hcount := congrArg List.length hcontents
    simp only [List.length_cons, List.length_append, List.length_replicate, List.length_nil]
      at hcount
    rw [not_or, not_not]
    exact ⟨by omega, hlast⟩
  have hmid : (contents.drop 1).dropLast = before ++ ((delimSet.begin ++
      (List.replicate (n + 1) ' ' ++ delimSet.finish)) ++ behind) := by
    rw [hcontents, List.drop_succ_cons, List.drop_zero, List.dropLast_concat]
  have hcore : Trimmed isWhitespace
      (delimSet.begin ++ (List.replicate (n + 1) ' ' ++ delimSet.finish)) := by
    refine ⟨fun c hc => ?_, fun c hc => ?_⟩
    · rw [List.head?_append_of_ne_nil _ hbegin] at hc
      exact (hvalid c (List.mem_of_mem_head? hc)).2
    · rw [← List.append_assoc, List.getLast?_append_of_ne_nil _ hfinish] at hc
      exact (hfinishValid c (List.mem_of_mem_getLast? hc)).2
  have htrim : trim (before ++ ((delimSet.begin ++
      (List.replicate (n + 1) ' ' ++ delimSet.finish)) ++ behind)) =
      delimSet.begin ++ (List.replicate (n + 1) ' ' ++ delimSet.finish) :=
    Margins.trim_of_padded ⟨hcore, before, behind, hbefore, hbehind, rfl⟩
  have hno : ∀ c ∈ delimSet.begin, (c != ' ') = true := by
    intro c hc
    rw [bne_iff_ne]
    rintro rfl
    exact absurd (hvalid ' ' hc).2 (by decide)
  have hno' : ∀ c ∈ delimSet.finish.head?, (c == ' ') = false := by
    intro c hc
    rw [beq_eq_false_iff_ne]
    rintro rfl
    exact absurd (hfinishValid ' ' (List.mem_of_mem_head? hc)).2 (by decide)
  have hspaces : ∀ c ∈ List.replicate (n + 1) ' ', (c == ' ') = true := fun c hc =>
    beq_iff_eq.mpr (List.eq_of_mem_replicate hc)
  rw [parseSetDelimiterTag, if_neg hlength]
  dsimp only
  rw [hmid, htrim, List.takeWhile_append_of_pos hno, List.dropWhile_append_of_pos hno,
    List.replicate_succ, List.cons_append, List.takeWhile_cons_of_neg (by decide),
    List.dropWhile_cons_of_neg (by decide), ← List.cons_append, ← List.replicate_succ,
    List.dropWhile_append_of_pos hspaces, Margins.dropWhile_of_head hno', List.append_nil, if_neg,
    if_neg]
  · rw [Bool.or_eq_true, not_or, Bool.not_eq_true', Bool.not_eq_true', Bool.not_eq_false,
      Bool.not_eq_false, isSetDelimiterValid_iff, isSetDelimiterValid_iff]
    exact ⟨hvalid, hfinishValid⟩
  · rw [not_not, List.replicate_succ]
    simp

/-- The component of a tag, where it begins a section the one without children. -/
def Tag.component : Tag → Component
  | .variableTag name => .variableTag name
  | .unescapedVariable name => .unescapedVariable name
  | .sectionBegin false name => .sectionBegin name [] []
  | .sectionBegin true name => .sectionBeginInverted name []
  | .sectionEnd name => .sectionEnd name
  | .comment text => .comment text
  | .partialTag name => .partialTag name
  | .setDelimiter delimSet => .setDelimiter delimSet

section Spelling

variable {contents : List Char} {braces : Bool} {tag : Tag}

theorem SetsDelimiters.head (h : SetsDelimiters contents delimSet) :
    contents.head? = some '=' := by
  obtain ⟨before, behind, n, -, -, hcontents⟩ := h.exists_spaces
  rw [hcontents, List.head?_cons]

theorem ofSigil_eq_none {c : Char} {name : List Char} (h : Tag.ofSigil c name = none)
    (name' : List Char) : Tag.ofSigil c name' = none := by
  rw [Tag.ofSigil.eq_def] at h ⊢
  split at h
  case h_7 => rfl
  all_goals cases h

/-- A tag that does not set delimiters is the one of `parse_tag_contents`. -/
theorem Spells.component (h : Spells contents braces tag) (hset : contents.head? ≠ some '=') :
    parseTagContents braces contents = tag.component := by
  cases h with
  | setDelimiter h => exact absurd h.head hset
  | inBraces h => rfl
  | variableTag hset h =>
      rw [parseTagContents.eq_def, if_neg Bool.false_ne_true]
      split <;> first | rfl | cases h _ rfl
  | sigil hcontents hname htag =>
      have htrim := Margins.padded_iff.mp hname
      rw [hcontents]
      rw [Tag.ofSigil.eq_def, ← htrim] at htag
      split at htag <;> cases htag <;> rfl

theorem exists_spells (braces : Bool) (hset : contents.head? ≠ some '=') :
    ∃ tag, Spells contents braces tag := by
  cases braces with
  | true => exact ⟨_, .inBraces hset⟩
  | false =>
      cases contents with
      | nil => exact ⟨_, .variableTag hset fun c hc => by cases hc⟩
      | cons c text =>
          cases htag : Tag.ofSigil c (trim text) with
          | some tag => exact ⟨tag, .sigil rfl (Margins.padded_trim isWhitespace text) htag⟩
          | none =>
              refine ⟨_, .variableTag hset fun c' hc' => ?_⟩
              rw [List.head?_cons, Option.mem_some_iff] at hc'
              rw [← hc']
              exact ofSigil_eq_none htag []

theorem Spells.exists_setDelimiter (h : Spells contents braces tag)
    (hset : contents.head? = some '=') :
    ∃ delimSet, tag = .setDelimiter delimSet ∧ SetsDelimiters contents delimSet := by
  cases h with
  | setDelimiter h => exact ⟨_, rfl, h⟩
  | inBraces h => exact absurd hset h
  | variableTag h => exact absurd hset h
  | sigil hcontents hname htag =>
      rw [hcontents, List.head?_cons, Option.some_inj] at hset
      rw [hset] at htag
      cases htag

end Spelling

end Webpp.Views
