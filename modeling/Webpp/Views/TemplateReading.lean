import Webpp.Views.MustacheScan
import Webpp.Views.TemplateItems

/-!
# Reading templates

The parser of a view reads a template to its end if its tags are closed, name two delimiters
where they set some, and are nested where they belong to sections. The tree has the items of the
template in their order then, and else there is an error.
-/

namespace Webpp.Views

open Loop Nesting Webpp.Http

variable {braces : Bool} {name : List Char} {secs : List OpenSection} {tag : Tag}
  {sec : OpenSection}

/-! ## The items of a tree -/

mutual

/-- The items of a component, where the tag that ends a section is given by its name. -/
def Component.items (endTag : List Char → List Item) : Component → List Item
  | .text text => text.map .char
  | .variableTag name => [.tag (.variableTag name)]
  | .unescapedVariable name => [.tag (.unescapedVariable name)]
  | .sectionBegin name _ children =>
      .tag (.sectionBegin false name) :: (itemsOf endTag children ++ endTag name)
  | .sectionBeginInverted name children =>
      .tag (.sectionBegin true name) :: (itemsOf endTag children ++ endTag name)
  | .sectionEnd name => [.tag (.sectionEnd name)]
  | .comment text => [.tag (.comment text)]
  | .partialTag name => [.tag (.partialTag name)]
  | .setDelimiter delimSet => [.tag (.setDelimiter delimSet)]

def itemsOf (endTag : List Char → List Item) : List Component → List Item
  | [] => []
  | comp :: comps => comp.items endTag ++ itemsOf endTag comps

end

/-- The items of a tree that is parsed, where the end of a section is the end of its children. -/
def treeItems (comps : List Component) : List Item :=
  itemsOf (fun name => [.tag (.sectionEnd name)]) comps

/-- The items of a tree with the tags that end sections among the children. -/
def rawItems (comps : List Component) : List Item := itemsOf (fun _ => []) comps

theorem itemsOf_append (endTag : List Char → List Item) (comps comps' : List Component) :
    itemsOf endTag (comps ++ comps') = itemsOf endTag comps ++ itemsOf endTag comps' := by
  induction comps with
  | nil => rfl
  | cons comp comps ih => rw [List.cons_append, itemsOf, itemsOf, ih, List.append_assoc]

theorem itemsOf_singleton (endTag : List Char → List Item) (comp : Component) :
    itemsOf endTag [comp] = comp.items endTag := by
  rw [itemsOf, itemsOf, List.append_nil]

theorem rawItems_append (comps comps' : List Component) :
    rawItems (comps ++ comps') = rawItems comps ++ rawItems comps' := itemsOf_append _ comps comps'

theorem treeItems_append (comps comps' : List Component) :
    treeItems (comps ++ comps') = treeItems comps ++ treeItems comps' :=
  itemsOf_append _ comps comps'

theorem treeItems_component (sec : OpenSection) (sectionText : List Char) :
    treeItems [sec.component sectionText] = .tag (.sectionBegin sec.inverted sec.name) ::
      (treeItems sec.children ++ [.tag (.sectionEnd sec.name)]) := by
  rw [OpenSection.component, treeItems, itemsOf_singleton]
  cases sec.inverted with
  | true => rw [if_pos rfl, Component.items]; rfl
  | false => rw [if_neg Bool.false_ne_true, Component.items]; rfl

theorem rawItems_component (sec : OpenSection) (sectionText : List Char) :
    rawItems [sec.component sectionText] =
      .tag (.sectionBegin sec.inverted sec.name) :: rawItems sec.children := by
  rw [OpenSection.component, rawItems, itemsOf_singleton]
  cases sec.inverted with
  | true => rw [if_pos rfl, Component.items, List.append_nil]; rfl
  | false => rw [if_neg Bool.false_ne_true, Component.items, List.append_nil]; rfl

theorem rawItems_tag (tag : Tag) : rawItems [tag.component] = [.tag tag] := by
  rw [rawItems, itemsOf_singleton]
  cases tag with
  | sectionBegin inverted name => cases inverted <;> rfl
  | variableTag name => rfl
  | unescapedVariable name => rfl
  | sectionEnd name => rfl
  | comment text => rfl
  | partialTag name => rfl
  | setDelimiter delimSet => rfl

/-- The items of the sections that are open. -/
def openItems : List OpenSection → List Item
  | [] => []
  | sec :: secs =>
      openItems secs ++ .tag (.sectionBegin sec.inverted sec.name) :: rawItems sec.children

/-! ## The walk over the sections -/

theorem checkSection_eq_ok {children children' : List Component} :
    checkSection name children = .ok children' ↔ children = children' ++ [.sectionEnd name] := by
  rw [checkSection]
  constructor
  · intro h
    split at h
    · rename_i last hlast
      split at h
      · rename_i hname
        cases h
        rw [← hname]
        exact (List.dropLast_append_getLast? _ hlast).symm
      · cases h
    · cases h
  · rintro rfl
    rw [List.getLast?_concat, List.dropLast_concat]
    exact if_pos rfl

theorem checkSection_error {children : List Component} {e : ParseError}
    (h : checkSection name children = .error e) : e ≠ .exhausted := by
  rw [checkSection] at h
  split at h
  · split at h
    · cases h
    · cases h
      exact ParseError.noConfusion
  · cases h
    exact ParseError.noConfusion

/-- The walk finds no section without an end. -/
def Passes (comps : List Component) : Prop := ∃ comps', checkComponents comps = .ok comps'

theorem passes_nil : Passes [] := ⟨[], rfl⟩

theorem passes_cons (comp : Component) (comps : List Component) :
    Passes (comp :: comps) ↔ (∃ comp', checkComponent comp = .ok comp') ∧ Passes comps := by
  rw [Passes, checkComponents, Passes]
  cases checkComponent comp with
  | error e => exact iff_of_false (fun ⟨comps', h⟩ => by cases h) fun ⟨⟨comp', h⟩, _⟩ => by cases h
  | ok comp' =>
      rw [and_iff_right ⟨comp', rfl⟩]
      cases checkComponents comps with
      | error e => exact iff_of_false (fun ⟨comps', h⟩ => by cases h) fun ⟨comps', h⟩ => by cases h
      | ok comps' => exact iff_of_true ⟨_, rfl⟩ ⟨_, rfl⟩

theorem passes_append (comps comps' : List Component) :
    Passes (comps ++ comps') ↔ Passes comps ∧ Passes comps' := by
  induction comps with
  | nil => rw [List.nil_append, and_iff_right passes_nil]
  | cons comp comps ih => rw [List.cons_append, passes_cons, passes_cons, ih, and_assoc]

theorem passes_section (sec : OpenSection) (sectionText : List Char) :
    Passes [sec.component sectionText] ↔
      (∃ children, sec.children = children ++ [.sectionEnd sec.name]) ∧ Passes sec.children := by
  have hchildren : (∃ comp', checkComponent (sec.component sectionText) = .ok comp') ↔
      (∃ children, checkSection sec.name sec.children = .ok children) ∧ Passes sec.children := by
    rw [OpenSection.component, Passes]
    cases sec.inverted
    all_goals
      simp only [reduceIte, Bool.false_eq_true, checkComponent]
      cases checkSection sec.name sec.children with
      | error e => exact iff_of_false (fun ⟨_, h⟩ => by cases h) fun ⟨⟨_, h⟩, _⟩ => by cases h
      | ok children =>
          rw [and_iff_right ⟨children, rfl⟩]
          cases checkComponents sec.children with
          | error e => exact iff_of_false (fun ⟨_, h⟩ => by cases h) fun ⟨_, h⟩ => by cases h
          | ok children' => exact iff_of_true ⟨_, rfl⟩ ⟨_, rfl⟩
  rw [passes_cons, and_iff_left passes_nil, hchildren]
  exact and_congr_left' (exists_congr fun children => checkSection_eq_ok)

theorem passes_closed {children : List Component}
    (h : sec.children = children ++ [.sectionEnd name]) (sectionText : List Char) :
    Passes [sec.component sectionText] ↔ name = sec.name ∧ Passes children := by
  have hend : Passes [.sectionEnd name] := ⟨_, rfl⟩
  rw [passes_section, h, passes_append, and_iff_left hend]
  refine and_congr_left' ⟨fun ⟨children', heq⟩ => ?_, fun hname => ⟨children, by rw [hname]⟩⟩
  have hlast := (List.append_inj' heq rfl).2
  cases hlast
  rfl

/-- No child is a tag that ends a section. -/
def EndsFree (comps : List Component) : Prop := ∀ name, .sectionEnd name ∉ comps

theorem endsFree_section (sec : OpenSection) (sectionText : List Char) :
    EndsFree [sec.component sectionText] := by
  intro name hmem
  rw [List.mem_singleton, OpenSection.component] at hmem
  split at hmem <;> cases hmem

theorem EndsFree.append {comps comps' : List Component} (h : EndsFree comps)
    (h' : EndsFree comps') : EndsFree (comps ++ comps') := by
  intro name hmem
  exact (List.mem_append.mp hmem).elim (h name) (h' name)

theorem not_passes_closeAll {root comps : List Component}
    (hsecs : secs ≠ []) (hends : ∀ sec ∈ secs, EndsFree sec.children) (hcomps : EndsFree comps) :
    ¬ Passes (closeAll root secs comps) := by
  induction secs generalizing comps with
  | nil => exact absurd rfl hsecs
  | cons sec secs ih =>
      rw [List.forall_mem_cons] at hends
      rw [closeAll]
      cases secs with
      | nil =>
          rw [closeAll, passes_append, passes_section]
          rintro ⟨-, ⟨children, hchildren⟩, -⟩
          refine hends.1.append hcomps sec.name ?_
          change sec.children ++ comps = children ++ [.sectionEnd sec.name] at hchildren
          rw [hchildren]
          exact List.mem_append_right children List.mem_cons_self
      | cons sec' secs =>
          exact ih (List.cons_ne_nil _ _) hends.2 (endsFree_section _ _)

theorem checkComponents_concat {comps comps' : List Component}
    (h : checkComponents (comps ++ [.sectionEnd name]) = .ok comps') :
    comps' = comps'.dropLast ++ [.sectionEnd name] := by
  induction comps generalizing comps' with
  | nil =>
      cases h
      rfl
  | cons comp comps ih =>
      rw [List.cons_append, checkComponents] at h
      cases hcomp : checkComponent comp with
      | error e =>
          rw [hcomp] at h
          cases h
      | ok comp' =>
          rw [hcomp] at h
          cases hcomps : checkComponents (comps ++ [.sectionEnd name]) with
          | error e =>
              rw [hcomps] at h
              cases h
          | ok comps'' =>
              rw [hcomps] at h
              cases h
              have hlast := ih hcomps
              rw [List.dropLast_cons_of_ne_nil, List.cons_append, ← hlast]
              rw [hlast]
              exact List.append_ne_nil_of_right_ne_nil _ (List.cons_ne_nil _ _)

/-- The children of a section without the tag that ends it. -/
theorem items_section {children children' comps : List Component}
    (hsection : checkSection name children = .ok children')
    (hcheck : checkComponents children = .ok comps) (h : treeItems comps = rawItems children) :
    treeItems comps.dropLast ++ [.tag (.sectionEnd name)] = rawItems children := by
  rw [checkSection_eq_ok.mp hsection] at hcheck
  calc treeItems comps.dropLast ++ [.tag (.sectionEnd name)]
      = treeItems (comps.dropLast ++ [.sectionEnd name]) :=
        (treeItems_append comps.dropLast [.sectionEnd name]).symm
    _ = treeItems comps := congrArg treeItems (checkComponents_concat hcheck).symm
    _ = rawItems children := h

mutual

theorem checkComponent_sat (comp : Component) : Sat (· ≠ .exhausted)
    (fun comp' => treeItems [comp'] = rawItems [comp]) (checkComponent comp) := by
  match comp with
  | .sectionBegin name sectionText children =>
      rw [checkComponent]
      cases hsection : checkSection name children with
      | error e => exact checkSection_error hsection
      | ok children' =>
          refine (checkComponents_sat children).and_ok.bind fun comps hcomps => ?_
          change treeItems
              [(⟨false, name, [], comps.dropLast⟩ : OpenSection).component sectionText] =
            rawItems [(⟨false, name, [], children⟩ : OpenSection).component sectionText]
          rw [treeItems_component, rawItems_component, items_section hsection hcomps.2 hcomps.1]
  | .sectionBeginInverted name children =>
      rw [checkComponent]
      cases hsection : checkSection name children with
      | error e => exact checkSection_error hsection
      | ok children' =>
          refine (checkComponents_sat children).and_ok.bind fun comps hcomps => ?_
          change treeItems [(⟨true, name, [], comps.dropLast⟩ : OpenSection).component []] =
            rawItems [(⟨true, name, [], children⟩ : OpenSection).component []]
          rw [treeItems_component, rawItems_component, items_section hsection hcomps.2 hcomps.1]
  | .text _ | .variableTag _ | .unescapedVariable _ | .sectionEnd _ | .comment _
  | .partialTag _ | .setDelimiter _ => exact rfl

theorem checkComponents_sat (comps : List Component) : Sat (· ≠ .exhausted)
    (fun comps' => treeItems comps' = rawItems comps) (checkComponents comps) := by
  match comps with
  | [] => exact rfl
  | comp :: comps =>
      rw [checkComponents]
      refine (checkComponent_sat comp).bind fun comp' hcomp => ?_
      refine (checkComponents_sat comps).bind fun comps' hcomps => ?_
      change treeItems ([comp'] ++ comps') = rawItems ([comp] ++ comps)
      rw [rawItems_append, ← hcomp, ← hcomps]
      exact treeItems_append _ _

end

/-! ## The state of the parser -/

namespace ParseState

/-- What has been read. -/
def items (s : ParseState) : List Item :=
  rawItems s.root ++ (openItems s.sections ++ s.currentText.map .char)

/-- The names of the sections that are open. -/
def names (s : ParseState) : List (List Char) := s.sections.map OpenSection.name

/-- The sections that are closed have their own ends. -/
def Sound (s : ParseState) : Prop := Passes s.root ∧ ∀ sec ∈ s.sections, Passes sec.children

/-- The sections that are open have no ends yet. -/
def Open (s : ParseState) : Prop := ∀ sec ∈ s.sections, EndsFree sec.children

variable {s : ParseState}

theorem push_of_nil (h : s.sections = []) (comp : Component) :
    s.push comp = { s with root := s.root ++ [comp] } := by
  rw [push, h]

theorem push_of_cons (h : s.sections = sec :: secs) (comp : Component) :
    s.push comp =
      { s with sections := { sec with children := sec.children ++ [comp] } :: secs } := by
  rw [push, h]

theorem items_push (hnil : s.currentText = []) (comp : Component) :
    (s.push comp).items = s.items ++ rawItems [comp] := by
  cases hsections : s.sections with
  | nil =>
      rw [push_of_nil hsections, items, items, hsections, hnil, openItems, rawItems_append]
      simp
  | cons sec secs =>
      rw [push_of_cons hsections, items, items, hsections, hnil, openItems, openItems,
        rawItems_append]
      simp

theorem names_push (comp : Component) : (s.push comp).names = s.names := by
  cases hsections : s.sections with
  | nil => rw [push_of_nil hsections, names, names]
  | cons sec secs => rw [push_of_cons hsections, names, names, hsections]; rfl

theorem sound_push (comp : Component) : (s.push comp).Sound ↔ s.Sound ∧ Passes [comp] := by
  cases hsections : s.sections with
  | nil =>
      rw [push_of_nil hsections, Sound, Sound, passes_append]
      tauto
  | cons sec secs =>
      rw [push_of_cons hsections, Sound, Sound, hsections, List.forall_mem_cons,
        List.forall_mem_cons, passes_append]
      tauto

theorem Open.push (h : s.Open) {comp : Component} (hcomp : EndsFree [comp]) :
    (s.push comp).Open := by
  cases hsections : s.sections with
  | nil =>
      rw [push_of_nil hsections]
      exact h
  | cons sec secs =>
      rw [Open, hsections, List.forall_mem_cons] at h
      rw [push_of_cons hsections]
      exact List.forall_mem_cons.mpr ⟨h.1.append hcomp, h.2⟩

theorem push_kept (comp : Component) :
    (s.push comp).rest = s.rest ∧ (s.push comp).delimSet = s.delimSet ∧
      (s.push comp).braces = s.braces ∧ (s.push comp).currentText = s.currentText := by
  rw [push]
  split <;> exact ⟨rfl, rfl, rfl, rfl⟩

end ParseState

/-- The state has read the items, and has found an end with another name if a stack of the
names finds one. -/
structure Tracks (items : List Item) (s : ParseState) : Prop where
  items_eq : s.items = items
  braces_eq : s.braces = s.delimSet.isDefault
  isOpen : s.Open
  sound : s.Sound → follow Item.role [] items = some s.names
  unsound : ¬ s.Sound → follow Item.role [] items = none

theorem ClosedTag.begins {delimSet : DelimiterSet} {input body rest : List Char}
    (h : ClosedTag delimSet input braces body rest) : delimSet.begin <+: input := by
  cases braces with
  | true =>
      have hbraced := h.braced.mp rfl
      rw [hbraced.1]
      exact List.IsPrefix.trans ⟨['\x7b'], rfl⟩ hbraced.2
  | false => exact ⟨_, h.input_eq.symm⟩

section Tracking

variable {items : List Item} {s : ParseState}

theorem follow_other {w : List Item} (hw : ∀ item ∈ w, item.role = .other) :
    follow Item.role [] (items ++ w) = follow Item.role [] items := by
  rw [follow_append]
  cases follow Item.role [] items with
  | none => rfl
  | some stack => exact follow_of_nested (nested_of_other hw) stack

/-- Reading texts and tags that are not about sections. -/
theorem Tracks.extend (h : Tracks items s) {s' : ParseState} {w : List Item}
    (hitems : s'.items = s.items ++ w) (hw : ∀ item ∈ w, item.role = .other)
    (hbraces : s'.braces = s'.delimSet.isDefault) (hopen : s'.Open) (hnames : s'.names = s.names)
    (hsound : s'.Sound ↔ s.Sound) : Tracks (items ++ w) s' where
  items_eq := by rw [hitems, h.items_eq]
  braces_eq := hbraces
  isOpen := hopen
  sound hs := by rw [follow_other hw, hnames, h.sound (hsound.mp hs)]
  unsound hs := by rw [follow_other hw, h.unsound (mt hsound.mpr hs)]

theorem Tracks.push (h : Tracks items s) (hnil : s.currentText = []) {comp : Component}
    (hw : ∀ item ∈ rawItems [comp], item.role = .other) (hpasses : Passes [comp])
    (hends : EndsFree [comp]) : Tracks (items ++ rawItems [comp]) (s.push comp) := by
  obtain ⟨-, hdelim, hbraces, -⟩ := s.push_kept comp
  refine h.extend (s.items_push hnil comp) hw ?_ (h.isOpen.push hends) (s.names_push comp) ?_
  · rw [hbraces, hdelim, h.braces_eq]
  · rw [s.sound_push, and_iff_left hpasses]

theorem rawItems_text (text : List Char) : rawItems [.text text] = text.map .char := by
  rw [rawItems, itemsOf_singleton, Component.items]

theorem role_chars (text : List Char) : ∀ item ∈ text.map Item.char, item.role = .other := by
  intro item hitem
  obtain ⟨c, -, rfl⟩ := List.mem_map.mp hitem
  rfl

theorem endsFree_text (text : List Char) : EndsFree [.text text] := by
  intro name hmem
  cases List.mem_singleton.mp hmem

theorem Tracks.pushText (h : Tracks items s) (hnil : s.currentText = []) (text : List Char) :
    Tracks (items ++ text.map .char) (s.push (.text text)) := by
  rw [← rawItems_text]
  refine h.push hnil ?_ ⟨_, rfl⟩ (endsFree_text text)
  rw [rawItems_text]
  exact role_chars text

theorem Tracks.processCurrentText (h : Tracks items s) :
    Tracks items s.processCurrentText ∧ s.processCurrentText.currentText = [] ∧
      s.processCurrentText.rest = s.rest ∧ s.processCurrentText.delimSet = s.delimSet := by
  rw [ParseState.processCurrentText]
  split
  · rename_i hnil
    exact ⟨h, hnil, rfl, rfl⟩
  · have hclear : { s.push (.text s.currentText) with currentText := [] } =
        ({ s with currentText := [] }).push (.text s.currentText) := by
      rw [ParseState.push, ParseState.push]
      cases s.sections <;> rfl
    generalize hs : ({ s with currentText := [] } : ParseState) = s₁ at hclear
    have hnil : s₁.currentText = [] := by rw [← hs]
    have hitems : s₁.items ++ s.currentText.map .char = s.items := by
      rw [← hs, ParseState.items, ParseState.items]
      simp
    have hcleared : Tracks s₁.items s₁ := by
      have hfollow : follow Item.role [] items = follow Item.role [] s₁.items := by
        rw [← h.items_eq, ← hitems]
        exact follow_other (role_chars s.currentText)
      refine ⟨rfl, ?_, ?_, fun hsound => ?_, fun hsound => ?_⟩
      · rw [← hs]
        exact h.braces_eq
      · rw [← hs]
        exact h.isOpen
      · rw [← hfollow, ← hs]
        rw [← hs] at hsound
        exact h.sound hsound
      · rw [← hfollow]
        rw [← hs] at hsound
        exact h.unsound hsound
    have hpushed := hcleared.pushText hnil s.currentText
    obtain ⟨hrest, hdelim, -, htext⟩ := s₁.push_kept (.text s.currentText)
    rw [hitems, h.items_eq] at hpushed
    rw [hclear]
    refine ⟨hpushed, htext.trans hnil, hrest.trans ?_, hdelim.trans ?_⟩
    · rw [← hs]
    · rw [← hs]

/-! ## The rounds -/

theorem find_whitespace {unit input : List Char} (hunit : TextUnit unit input) :
    whitespace.find? (·.isPrefixOf (unit ++ input)) = some unit ∨
      whitespace.find? (·.isPrefixOf (unit ++ input)) = none ∧ ∃ c, unit = [c] := by
  cases hunit with
  | newline => exact .inl rfl
  | char h =>
      rename_i c
      have hnewline : ¬ ['\r', '\n'].isPrefixOf ([c] ++ input) = true := by
        rw [List.isPrefixOf_iff_prefix, List.singleton_append, List.cons_prefix_cons]
        rintro ⟨rfl, tail, rfl⟩
        exact h rfl rfl
      have hone : ∀ c', [c'].isPrefixOf ([c] ++ input) = true ↔ c' = c := by
        intro c'
        rw [List.isPrefixOf_iff_prefix, List.singleton_append, List.cons_prefix_cons,
          and_iff_left List.nil_prefix]
      rw [whitespace, List.find?_cons_of_neg
        (p := fun text : List Char => text.isPrefixOf ([c] ++ input)) hnewline]
      by_cases hc : c = '\n' ∨ c = '\r' ∨ c = ' ' ∨ c = '\t'
      · refine .inl ?_
        rcases hc with rfl | rfl | rfl | rfl <;> rfl
      · push Not at hc
        refine .inr ⟨?_, c, rfl⟩
        rw [List.find?_eq_none]
        intro text htext
        simp only [List.mem_cons, List.not_mem_nil, or_false] at htext
        rcases htext with rfl | rfl | rfl | rfl
        · rw [hone]
          exact hc.1.symm
        · rw [hone]
          exact hc.2.1.symm
        · rw [hone]
          exact hc.2.2.1.symm
        · rw [hone]
          exact hc.2.2.2.symm

theorem Tracks.step_text (h : Tracks items s) {unit input : List Char}
    (hrest : s.rest = unit ++ input) (hunit : TextUnit unit input)
    (hbegin : ¬ s.delimSet.begin <+: unit ++ input) :
    ∃ s', parseStep s = .ok (.next s') ∧ Tracks (items ++ unit.map .char) s' ∧ s'.rest = input ∧
      s'.delimSet = s.delimSet := by
  have hprefix : ¬ s.delimSet.begin.isPrefixOf (unit ++ input) = true :=
    mt List.isPrefixOf_iff_prefix.mp hbegin
  have hfind := find_whitespace hunit
  obtain ⟨c, tail, hc⟩ : ∃ c tail, unit ++ input = c :: tail := by
    cases hunit with
    | newline => exact ⟨_, _, rfl⟩
    | char h => exact ⟨_, _, rfl⟩
  rw [parseStep, hrest, hc]
  dsimp only
  rw [← hc, if_neg hprefix]
  rcases hfind with hfind | ⟨hfind, c', rfl⟩
  · rw [hfind]
    obtain ⟨htracks, hnil, hrest', hdelim⟩ := h.processCurrentText
    have hpushed := htracks.pushText hnil unit
    obtain ⟨-, hdelim', -, -⟩ := s.processCurrentText.push_kept (.text unit)
    refine ⟨_, rfl, ⟨hpushed.items_eq, hpushed.braces_eq, hpushed.isOpen, hpushed.sound,
      hpushed.unsound⟩, List.drop_left, hdelim'.trans hdelim⟩
  · rw [hfind]
    obtain ⟨rfl, rfl⟩ := List.cons.inj hc
    refine ⟨_, rfl, h.extend ?_ (role_chars [c']) h.braces_eq h.isOpen rfl Iff.rfl, rfl, rfl⟩
    rw [ParseState.items, ParseState.items]
    simp

theorem parseStep_begin (hne : s.rest ≠ []) (hbegin : s.delimSet.begin <+: s.rest) :
    parseStep s = (parseTag s.processCurrentText).map .next := by
  obtain ⟨c, tail, hc⟩ := List.exists_cons_of_ne_nil hne
  rw [parseStep, hc]
  dsimp only
  rw [← hc, if_pos (List.isPrefixOf_iff_prefix.mpr hbegin)]

theorem parseBrace_iff (hbraces : s.braces = s.delimSet.isDefault)
    (hbegin : s.delimSet.begin <+: s.rest) :
    parseBrace s = true ↔ s.delimSet.Braced s.rest := by
  rw [parseBrace, hbraces, DelimiterSet.Braced]
  by_cases hdefault : s.delimSet = {}
  · rw [hdefault] at hbegin ⊢
    obtain ⟨tail, htail⟩ := hbegin
    rw [← htail, and_iff_right rfl]
    cases tail with
    | nil => decide
    | cons c tail =>
        change ((('\x7b' :: '\x7b' :: c :: tail).length != 2) && (some c == some '\x7b')) = true ↔
          ['\x7b', '\x7b', '\x7b'] <+: '\x7b' :: '\x7b' :: c :: tail
        have hlength : ('\x7b' :: '\x7b' :: c :: tail).length != 2 :=
          bne_iff_ne.mpr (by rw [List.length_cons, List.length_cons, List.length_cons]; omega)
        rw [hlength, Bool.true_and, beq_iff_eq, Option.some_inj, List.cons_prefix_cons,
          List.cons_prefix_cons, List.cons_prefix_cons, and_iff_right rfl, and_iff_right rfl,
          and_iff_left List.nil_prefix, eq_comm]
  · have hnot : s.delimSet.isDefault = false := beq_eq_false_iff_ne.mpr hdefault
    rw [hnot]
    exact iff_of_false (by simp) fun h => hdefault h.1

theorem rest_contents (hbraced : braces = true → s.delimSet = {}) :
    (if braces then (s.rest.drop s.delimSet.begin.length).drop 1
      else s.rest.drop s.delimSet.begin.length) =
      s.rest.drop (s.delimSet.opening braces).length := by
  cases braces with
  | false => rfl
  | true =>
      rw [if_pos rfl, List.drop_drop, hbraced rfl]
      rfl

theorem parseTag_unclosed (hbraces : s.braces = s.delimSet.isDefault)
    (h : UnclosedTag s.delimSet s.rest) : parseTag s = .error .unclosedTag := by
  have hbrace := parseBrace_iff hbraces h.begins
  rw [parseTag_eq, parseContents, rest_contents fun hb => (hbrace.mp hb).1]
  have hopening : s.delimSet.opening (parseBrace s) <+: s.rest := by
    rw [DelimiterSet.opening]
    split
    · rename_i hb
      exact (hbrace.mp hb).2
    · exact h.begins
  obtain ⟨tail, htail⟩ := hopening
  rw [← DelimiterSet.closing]
  cases hfind : findText (s.delimSet.closing (parseBrace s))
    (s.rest.drop (s.delimSet.opening (parseBrace s)).length) with
  | none => rfl
  | some found =>
      obtain ⟨body, rest⟩ := found
      have hbody := (findText_of_some hfind).1
      rw [← htail, List.drop_left] at hbody
      rw [hbody] at htail
      exact absurd htail.symm (h.unclosed _ body rest hbrace)

theorem parseTag_closed (hbraces : s.braces = s.delimSet.isDefault)
    {body rest : List Char} (h : ClosedTag s.delimSet s.rest braces body rest) :
    parseTag s =
      if (trim body).head? = some '=' then
        match parseSetDelimiterTag (trim body) with
        | none => .error .invalidSetDelimiter
        | some delimSet =>
            .ok ({ s with rest := rest, delimSet := delimSet, braces := delimSet.isDefault }.push
              (.setDelimiter delimSet))
      else { s with rest := rest }.pushTag s.rest (parseTagContents braces (trim body)) := by
  have hbrace := parseBrace_iff hbraces h.begins
  have heq : parseBrace s = braces := Bool.eq_iff_iff.mpr (hbrace.trans h.braced.symm)
  rw [parseTag_eq, heq, parseContents, rest_contents fun hb => (h.braced.mp hb).1]
  have hfind : findText (if braces = true then ['\x7d', '\x7d', '\x7d'] else s.delimSet.finish)
      (s.rest.drop (s.delimSet.opening braces).length) = some (body, rest) := by
    refine findText_eq_some ?_ fun before' behind' hstr => h.first before' behind' ?_
    · conv_lhs => rw [h.input_eq, List.drop_left]
      rfl
    · rw [h.input_eq, List.drop_left] at hstr
      exact hstr
  generalize findText _ (s.rest.drop (s.delimSet.opening braces).length) = found at hfind ⊢
  subst hfind
  rfl

theorem follow_concat (item : Item) : follow Item.role [] (items ++ [item]) =
    (follow Item.role [] items).bind fun stack => followOne stack item.role := by
  rw [follow_append]
  congr 1
  funext stack
  exact follow_singleton item

theorem Tracks.openSection (h : Tracks items s) (hnil : s.currentText = []) (inverted : Bool)
    (name start : List Char) : Tracks (items ++ [.tag (.sectionBegin inverted name)])
      { s with sections := ⟨inverted, name, start, []⟩ :: s.sections } := by
  have hsound : ParseState.Sound
      { s with sections := ⟨inverted, name, start, []⟩ :: s.sections } ↔ s.Sound := by
    rw [ParseState.Sound, ParseState.Sound, List.forall_mem_cons, and_iff_right passes_nil]
  refine ⟨?_, h.braces_eq, ?_, fun hs => ?_, fun hs => ?_⟩
  · rw [← h.items_eq, ParseState.items, ParseState.items, hnil, openItems]
    simp [rawItems, itemsOf]
  · exact List.forall_mem_cons.mpr ⟨fun name hmem => absurd hmem List.not_mem_nil, h.isOpen⟩
  · rw [follow_concat, h.sound (hsound.mp hs)]
    rfl
  · rw [follow_concat, h.unsound (mt hsound.mpr hs)]
    rfl

theorem Tracks.closeSection (h : Tracks items s) (hnil : s.currentText = [])
    (hsections : s.sections = sec :: secs) (name sectionText : List Char) :
    Tracks (items ++ [.tag (.sectionEnd name)]) ({ s with sections := secs }.push
      (({ sec with children := sec.children ++ [Component.sectionEnd name] }).component
        sectionText)) := by
  have hclosed : Passes [({ sec with
      children := sec.children ++ [Component.sectionEnd name] }).component sectionText] ↔
      name = sec.name ∧ Passes sec.children := passes_closed rfl sectionText
  have hopen := h.isOpen
  rw [ParseState.Open, hsections, List.forall_mem_cons] at hopen
  have hsound := ({ s with sections := secs } : ParseState).sound_push
    (({ sec with children := sec.children ++ [Component.sectionEnd name] }).component sectionText)
  have hwhole : s.Sound ↔ ({ s with sections := secs } : ParseState).Sound ∧
      Passes sec.children := by
    rw [ParseState.Sound, ParseState.Sound, hsections, List.forall_mem_cons]
    tauto
  rw [hclosed] at hsound
  have hnames : s.names = sec.name :: secs.map OpenSection.name := by
    rw [ParseState.names, hsections, List.map_cons]
  obtain ⟨-, hdelim, hbraces, -⟩ := ({ s with sections := secs } : ParseState).push_kept
    (({ sec with children := sec.children ++ [Component.sectionEnd name] }).component sectionText)
  have hopen' : ({ s with sections := secs } : ParseState).Open := hopen.2
  have hnil' : ({ s with sections := secs } : ParseState).currentText = [] := hnil
  refine ⟨?_, ?_, hopen'.push (endsFree_section _ _), fun hs => ?_, fun hs => ?_⟩
  · rw [ParseState.items_push hnil', rawItems_component, rawItems_append, ← h.items_eq,
      ParseState.items, ParseState.items, hsections, hnil, openItems]
    simp [rawItems, itemsOf, Component.items]
  · rw [hbraces, hdelim]
    exact h.braces_eq
  · obtain ⟨hs', hname, hchildren⟩ := hsound.mp hs
    rw [follow_concat, h.sound (hwhole.mpr ⟨hs', hchildren⟩), hnames, ParseState.names_push]
    exact if_pos hname.symm
  · rw [follow_concat]
    by_cases hbefore : s.Sound
    · rw [h.sound hbefore, hnames]
      refine if_neg fun hname => hs (hsound.mpr ⟨(hwhole.mp hbefore).1, hname.symm, ?_⟩)
      exact (hwhole.mp hbefore).2
    · rw [h.unsound hbefore]
      rfl

theorem Tracks.pushTag (h : Tracks items s) (hnil : s.currentText = []) (tag : Tag)
    (tagStart : List Char) :
    (∃ e, s.pushTag tagStart tag.component = .error e ∧ e ≠ .exhausted ∧
        follow Item.role [] (items ++ [.tag tag]) = none) ∨
      ∃ s', s.pushTag tagStart tag.component = .ok s' ∧ Tracks (items ++ [.tag tag]) s' ∧
        s'.rest = s.rest ∧ s'.delimSet = s.delimSet := by
  have hpush : (Item.tag tag).role = .other → Passes [tag.component] → EndsFree [tag.component] →
      s.pushTag tagStart tag.component = .ok (s.push tag.component) →
      ∃ s', s.pushTag tagStart tag.component = .ok s' ∧ Tracks (items ++ [.tag tag]) s' ∧
        s'.rest = s.rest ∧ s'.delimSet = s.delimSet := by
    intro hrole hpasses hends hok
    obtain ⟨hrest, hdelim, -, -⟩ := s.push_kept tag.component
    refine ⟨_, hok, ?_, hrest, hdelim⟩
    rw [← rawItems_tag]
    refine h.push hnil ?_ hpasses hends
    rw [rawItems_tag, List.forall_mem_singleton]
    exact hrole
  have hends : (∀ name, .sectionEnd name ≠ tag.component) → EndsFree [tag.component] :=
    fun hne name hmem => hne name (List.mem_singleton.mp hmem)
  cases tag with
  | sectionBegin inverted name =>
      cases inverted with
      | false => exact .inr ⟨_, rfl, h.openSection hnil false name s.rest, rfl, rfl⟩
      | true => exact .inr ⟨_, rfl, h.openSection hnil true name s.rest, rfl, rfl⟩
  | sectionEnd name =>
      cases hsections : s.sections with
      | nil =>
          refine .inl ⟨.unopenedSection name, ?_, ParseError.noConfusion, ?_⟩
          · rw [Tag.component, ParseState.pushTag, ParseState.push_of_nil hsections]
            simp only [hsections]
          · rw [follow_concat]
            by_cases hs : s.Sound
            · rw [h.sound hs, ParseState.names, hsections]
              rfl
            · rw [h.unsound hs]
              rfl
      | cons sec secs =>
          refine .inr ⟨_, ?_, h.closeSection hnil hsections name
            (sec.start.take (sec.start.length - tagStart.length)), ?_, ?_⟩
          · rw [Tag.component, ParseState.pushTag, ParseState.push_of_cons hsections]
            rfl
          · exact (ParseState.push_kept _).1
          · exact (ParseState.push_kept _).2.1
  | variableTag name => exact .inr (hpush rfl ⟨_, rfl⟩ (hends fun _ h => by cases h) rfl)
  | unescapedVariable name => exact .inr (hpush rfl ⟨_, rfl⟩ (hends fun _ h => by cases h) rfl)
  | comment text => exact .inr (hpush rfl ⟨_, rfl⟩ (hends fun _ h => by cases h) rfl)
  | partialTag name => exact .inr (hpush rfl ⟨_, rfl⟩ (hends fun _ h => by cases h) rfl)
  | setDelimiter delimSet => exact .inr (hpush rfl ⟨_, rfl⟩ (hends fun _ h => by cases h) rfl)

theorem Spells.after {contents : List Char}
    (h : Spells contents braces tag) (hset : contents.head? ≠ some '=')
    (delimSet : DelimiterSet) : tag.after delimSet = delimSet := by
  cases h with
  | setDelimiter h => exact absurd h.head hset
  | inBraces h => rfl
  | variableTag hset h => rfl
  | sigil hcontents hname htag =>
      rw [Tag.ofSigil.eq_def] at htag
      split at htag <;> cases htag <;> rfl

/-- The round at a tag reads it, unless it ends a section that is not open. -/
theorem Tracks.step_tag (h : Tracks items s) {input : List Char}
    (htag : TagAt s.delimSet s.rest tag input) :
    (∃ e, parseStep s = .error e ∧ e ≠ .exhausted ∧
        follow Item.role [] (items ++ [.tag tag]) = none) ∨
      ∃ s', parseStep s = .ok (.next s') ∧ Tracks (items ++ [.tag tag]) s' ∧ s'.rest = input ∧
        s'.delimSet = tag.after s.delimSet := by
  obtain ⟨braces, body, contents, hclosed, hpadded, hspells⟩ := htag
  rw [parseStep_begin hclosed.ne_nil hclosed.begins]
  obtain ⟨htracks, hnil, hrest, hdelim⟩ := h.processCurrentText
  generalize s.processCurrentText = s₁ at htracks hnil hrest hdelim ⊢
  rw [← hrest, ← hdelim] at hclosed
  rw [parseTag_closed htracks.braces_eq hclosed, trim_eq_iff.mpr hpadded, ← hdelim]
  by_cases hset : contents.head? = some '='
  · obtain ⟨delimSet, rfl, hsets⟩ := hspells.exists_setDelimiter hset
    rw [if_pos hset, hsets.parse]
    have hmoved : Tracks items { s₁ with
        rest := input, delimSet := delimSet, braces := delimSet.isDefault } :=
      ⟨htracks.items_eq, rfl, htracks.isOpen, htracks.sound, htracks.unsound⟩
    obtain ⟨hrest', hdelim', -, -⟩ := ({ s₁ with
      rest := input, delimSet := delimSet, braces := delimSet.isDefault } : ParseState).push_kept
        (.setDelimiter delimSet)
    refine .inr ⟨_, rfl, ?_, hrest', hdelim'⟩
    have hends : EndsFree [.setDelimiter delimSet] :=
      fun name hmem => by cases List.mem_singleton.mp hmem
    have hrole : ∀ item ∈ rawItems [.setDelimiter delimSet], item.role = .other :=
      fun item hitem => by
        rw [List.mem_singleton.mp hitem]
        rfl
    exact hmoved.push hnil hrole ⟨_, rfl⟩ hends
  · rw [if_neg hset, hspells.component hset, hspells.after hset]
    have hmoved : Tracks items { s₁ with rest := input } :=
      ⟨htracks.items_eq, htracks.braces_eq, htracks.isOpen, htracks.sound, htracks.unsound⟩
    rcases hmoved.pushTag hnil tag s₁.rest with ⟨e, he, hne, hfollow⟩ | ⟨s', hs', htracks', hkept⟩
    · exact .inl ⟨e, by rw [he]; rfl, hne, hfollow⟩
    · exact .inr ⟨s', by rw [hs']; rfl, htracks', hkept⟩

/-- A tag without a closing delimiter or without two delimiters to set ends the loop. -/
theorem Tracks.step_error (h : Tracks items s)
    (htag : UnclosedTag s.delimSet s.rest ∨ MalformedTag s.delimSet s.rest) :
    ∃ e, parseStep s = .error e ∧ e ≠ .exhausted := by
  obtain ⟨htracks, -, hrest, hdelim⟩ := h.processCurrentText
  rcases htag with htag | ⟨braces, body, rest, contents, hclosed, hpadded, hset, hnone⟩
  · refine ⟨.unclosedTag, ?_, ParseError.noConfusion⟩
    rw [parseStep_begin htag.ne_nil htag.begins, parseTag_unclosed htracks.braces_eq]
    · rfl
    · rw [hrest, hdelim]
      exact htag
  · refine ⟨.invalidSetDelimiter, ?_, ParseError.noConfusion⟩
    rw [parseStep_begin hclosed.ne_nil hclosed.begins]
    rw [← hrest, ← hdelim] at hclosed
    have hparse : parseSetDelimiterTag contents = none :=
      Option.eq_none_iff_forall_ne_some.mpr fun delimSet hsome =>
        hnone delimSet (.of_parse hset hsome)
    rw [parseTag_closed htracks.braces_eq hclosed, trim_eq_iff.mpr hpadded, if_pos hset, hparse]
    rfl

end Tracking

/-! ## The runs -/

/-- The two delimiters are not both empty. -/
def DelimiterSet.Proper (delimSet : DelimiterSet) : Prop :=
  delimSet.begin ≠ [] ∨ delimSet.finish ≠ []

section Runs

variable {delimSet delimSet' : DelimiterSet} {input rest : List Char}

theorem ClosedTag.length_lt {body : List Char} (hd : delimSet.Proper)
    (h : ClosedTag delimSet input braces body rest) : rest.length < input.length := by
  have hlength := congrArg List.length h.input_eq
  rw [List.length_append, List.length_append, List.length_append] at hlength
  have hpos : 0 < (delimSet.opening braces).length + (delimSet.closing braces).length := by
    cases braces with
    | true => exact Nat.succ_pos _
    | false =>
        rcases hd with hd | hd
        · exact Nat.add_pos_left (List.length_pos_of_ne_nil hd) _
        · exact Nat.add_pos_right _ (List.length_pos_of_ne_nil hd)
  omega

theorem TagAt.length_lt (hd : delimSet.Proper) (h : TagAt delimSet input tag rest) :
    rest.length < input.length := by
  obtain ⟨braces, body, contents, hclosed, -, -⟩ := h
  exact hclosed.length_lt hd

theorem Spells.proper {contents : List Char}
    (h : Spells contents braces tag) (hd : delimSet.Proper) : (tag.after delimSet).Proper := by
  by_cases hset : contents.head? = some '='
  · obtain ⟨delimSet', rfl, hsets⟩ := h.exists_setDelimiter hset
    exact .inl hsets.begin_ne_nil
  · rw [h.after hset]
    exact hd

theorem TagAt.proper (hd : delimSet.Proper) (h : TagAt delimSet input tag rest) :
    (tag.after delimSet).Proper := by
  obtain ⟨braces, body, contents, -, -, hspells⟩ := h
  exact hspells.proper hd

theorem TextUnit.length_lt {unit : List Char} (h : TextUnit unit input) :
    input.length < (unit ++ input).length := by
  cases h with
  | newline => exact Nat.lt_succ_of_lt (Nat.lt_succ_self _)
  | char h => exact Nat.lt_succ_self _

theorem Reads.follows {items' : List Item} (h : Reads delimSet input items' delimSet' rest)
    (hd : delimSet.Proper) {items : List Item} {s : ParseState} (htracks : Tracks items s)
    (hrest : s.rest = input) (hdelim : s.delimSet = delimSet) :
    (∃ e, e ≠ .exhausted ∧
        EndsWith parseStep .exhausted (fun s => s.rest.length) s (.error e) ∧
        follow Item.role [] (items ++ items') = none) ∨
      ∃ s', LeadsTo parseStep .exhausted (fun s => s.rest.length) s s' ∧
        Tracks (items ++ items') s' ∧ s'.rest = rest ∧ s'.delimSet = delimSet' := by
  induction h generalizing items s with
  | nil delimSet input =>
      refine .inr ⟨s, .refl s, ?_, hrest, hdelim⟩
      rw [List.append_nil]
      exact htracks
  | text hunit hbegin h ih =>
      rw [← hdelim] at hbegin
      obtain ⟨s', hstep, htracks', hrest', hdelim'⟩ := htracks.step_text hrest hunit hbegin
      have hlt := hunit.length_lt
      rw [← hrest, ← hrest'] at hlt
      have hleads : LeadsTo parseStep .exhausted (fun s => s.rest.length) s s' :=
        leadsTo_of_next hstep hlt
      rw [← List.append_assoc]
      rcases ih hd htracks' hrest' (hdelim'.trans hdelim) with ⟨e, hne, hends, hfollow⟩ |
        ⟨s'', hleads', hrun⟩
      · exact .inl ⟨e, hne, hleads.ends hends, hfollow⟩
      · exact .inr ⟨s'', hleads.trans hleads', hrun⟩
  | tag htag h ih =>
      rename_i tag
      have hproper := htag.proper hd
      have hlt := htag.length_lt hd
      rw [← hrest, ← hdelim] at htag
      rw [List.append_cons]
      rcases htracks.step_tag htag with ⟨e, hstep, hne, hfollow⟩ |
        ⟨s', hstep, htracks', hrest', hdelim'⟩
      · refine .inl ⟨e, hne, endsWith_of_error hstep, ?_⟩
        rw [follow_append, hfollow]
        rfl
      · rw [← hrest, ← hrest'] at hlt
        have hleads : LeadsTo parseStep .exhausted (fun s => s.rest.length) s s' :=
          leadsTo_of_next hstep hlt
        rw [hdelim] at hdelim'
        rcases ih hproper htracks' hrest' hdelim' with ⟨e, hne, hends, hfollow⟩ |
          ⟨s'', hleads', hrun⟩
        · exact .inl ⟨e, hne, hleads.ends hends, hfollow⟩
        · exact .inr ⟨s'', hleads.trans hleads', hrun⟩

theorem Tracks.finish {items : List Item} {s : ParseState} (h : Tracks items s)
    (hnil : s.currentText = []) :
    (∃ e, checkComponents (closeAll s.root s.sections []) = .error e ∧ e ≠ .exhausted ∧
        ¬ Nested Item.role items) ∨
      ∃ comps, checkComponents (closeAll s.root s.sections []) = .ok comps ∧
        treeItems comps = items ∧ Nested Item.role items := by
  have hsat := (checkComponents_sat (closeAll s.root s.sections [])).and_ok
  have hfails : ¬ Passes (closeAll s.root s.sections []) → ¬ Nested Item.role items →
      ∃ e, checkComponents (closeAll s.root s.sections []) = .error e ∧ e ≠ .exhausted ∧
        ¬ Nested Item.role items := by
    intro hnot hnested
    cases hcheck : checkComponents (closeAll s.root s.sections []) with
    | ok comps => exact absurd ⟨comps, hcheck⟩ hnot
    | error e =>
        rw [hcheck] at hsat
        exact ⟨e, rfl, hsat, hnested⟩
  have hsoundness : Nested Item.role items → s.Sound ∧ s.sections = [] := by
    intro hnested
    rw [nested_iff] at hnested
    by_cases hs : s.Sound
    · rw [h.sound hs, Option.some_inj, ParseState.names, List.map_eq_nil_iff] at hnested
      exact ⟨hs, hnested⟩
    · rw [h.unsound hs] at hnested
      cases hnested
  cases hsections : s.sections with
  | cons sec secs =>
      rw [← hsections]
      have hne : s.sections ≠ [] := by rw [hsections]; exact List.cons_ne_nil _ _
      exact .inl (hfails (not_passes_closeAll hne h.isOpen fun _ hmem => absurd hmem
        List.not_mem_nil) fun hnested => hne (hsoundness hnested).2)
  | nil =>
      rw [hsections, closeAll, List.append_nil] at hsat hfails
      rw [closeAll, List.append_nil]
      by_cases hpasses : Passes s.root
      · obtain ⟨comps, hcomps⟩ := hpasses
        have hs : s.Sound := by
          refine ⟨⟨comps, hcomps⟩, ?_⟩
          rw [hsections]
          exact fun sec hsec => absurd hsec List.not_mem_nil
        rw [hcomps] at hsat
        refine .inr ⟨comps, hcomps, ?_, ?_⟩
        · rw [hsat.1, ← h.items_eq, ParseState.items, hsections, hnil, openItems]
          simp
        · rw [nested_iff, h.sound hs, ParseState.names, hsections, List.map_nil]
      · exact .inl (hfails hpasses fun hnested => hpasses (hsoundness hnested).1.1)

theorem tracks_start (delimSet : DelimiterSet) (input : List Char) :
    Tracks [] ⟨input, delimSet, delimSet.isDefault, [], [], []⟩ where
  items_eq := rfl
  braces_eq := rfl
  isOpen _ hsec := absurd hsec List.not_mem_nil
  sound _ := rfl
  unsound h := absurd ⟨passes_nil, fun _ hsec => absurd hsec List.not_mem_nil⟩ h

/-- A template that reads to its end is parsed into its items if they are nested. -/
theorem Reads.parse {items : List Item} (h : Reads delimSet input items delimSet' [])
    (hd : delimSet.Proper) :
    (∃ e, parseWith delimSet input = .error e ∧ e ≠ .exhausted ∧ ¬ Nested Item.role items) ∨
      ∃ comps, parseWith delimSet input = .ok comps ∧ treeItems comps = items ∧
        Nested Item.role items := by
  have hrun := h.follows hd (tracks_start delimSet input) rfl rfl
  rw [parseWith]
  rcases hrun with ⟨e, hne, hends, hfollow⟩ | ⟨s', hleads, htracks, hrest, -⟩
  · refine .inl ⟨e, ?_, hne, fun hnested => ?_⟩
    · rw [hends (input.length + 1) (Nat.lt_succ_self _)]
      rfl
    · rw [List.nil_append] at hfollow
      rw [nested_iff, hfollow] at hnested
      cases hnested
  · rw [List.nil_append] at htracks
    have hstep : parseStep s' = .ok (.done s'.processCurrentText) := by
      rw [parseStep, hrest]
    have hends := hleads.ends (endsWith_of_done hstep)
    rw [hends (input.length + 1) (Nat.lt_succ_self _)]
    obtain ⟨htracks', hnil, -, -⟩ := htracks.processCurrentText
    exact htracks'.finish hnil

theorem Reads.parse_error {items : List Item} (h : Reads delimSet input items delimSet' rest)
    (hd : delimSet.Proper) (htag : UnclosedTag delimSet' rest ∨ MalformedTag delimSet' rest) :
    ∃ e, parseWith delimSet input = .error e ∧ e ≠ .exhausted := by
  have hrun := h.follows hd (tracks_start delimSet input) rfl rfl
  rw [parseWith]
  rcases hrun with ⟨e, hne, hends, -⟩ | ⟨s', hleads, htracks, hrest, hdelim⟩
  · exact ⟨e, by rw [hends (input.length + 1) (Nat.lt_succ_self _)]; rfl, hne⟩
  · rw [← hrest, ← hdelim] at htag
    obtain ⟨e, hstep, hne⟩ := htracks.step_error htag
    have hends := hleads.ends (endsWith_of_error hstep)
    exact ⟨e, by rw [hends (input.length + 1) (Nat.lt_succ_self _)]; rfl, hne⟩

theorem exists_textUnit (hne : input ≠ []) :
    ∃ unit rest, input = unit ++ rest ∧ TextUnit unit rest := by
  obtain ⟨c, tail, rfl⟩ := List.exists_cons_of_ne_nil hne
  by_cases hnewline : c = '\r' ∧ tail.head? = some '\n'
  · obtain ⟨rfl, hhead⟩ := hnewline
    obtain ⟨rest, rfl⟩ := List.head?_eq_some_iff.mp hhead
    exact ⟨['\r', '\n'], rest, rfl, .newline rest⟩
  · exact ⟨[c], tail, rfl, .char fun hc hhead => hnewline ⟨hc, hhead⟩⟩

theorem exists_closedTag (hne : input ≠ []) (hbegin : delimSet.begin <+: input) :
    UnclosedTag delimSet input ∨ ∃ braces body rest, ClosedTag delimSet input braces body rest := by
  classical
  obtain ⟨braces, hbraces⟩ : ∃ braces : Bool, braces = true ↔ delimSet.Braced input :=
    ⟨decide (delimSet.Braced input), decide_eq_true_iff⟩
  have hopening : delimSet.opening braces <+: input := by
    rw [DelimiterSet.opening]
    split
    · rename_i h
      exact (hbraces.mp h).2
    · exact hbegin
  obtain ⟨tail, rfl⟩ := hopening
  cases hfind : findText (delimSet.closing braces) tail with
  | none =>
      refine .inl ⟨hne, hbegin, fun braces' body rest hbraces' heq => ?_⟩
      rw [Bool.eq_iff_iff.mpr (hbraces'.trans hbraces.symm)] at heq
      exact findText_of_none hfind body rest (List.append_cancel_left heq)
  | some found =>
      obtain ⟨body, rest⟩ := found
      obtain ⟨htail, hfirst⟩ := findText_of_some hfind
      refine .inr ⟨braces, body, rest, hne, hbraces, by rw [htail], fun body' rest' heq => ?_⟩
      exact hfirst body' rest' (htail.trans heq)

theorem exists_reads (hd : delimSet.Proper) (input : List Char) :
    ∃ items delimSet' rest, Reads delimSet input items delimSet' rest ∧
      (rest = [] ∨ UnclosedTag delimSet' rest ∨ MalformedTag delimSet' rest) := by
  induction hlength : input.length using Nat.strong_induction_on generalizing delimSet input with
  | _ n ih =>
      subst hlength
      by_cases hne : input = []
      · exact ⟨[], delimSet, input, .nil delimSet input, .inl hne⟩
      by_cases hbegin : delimSet.begin <+: input
      · rcases exists_closedTag hne hbegin with hunclosed | ⟨braces, body, rest, hclosed⟩
        · exact ⟨[], delimSet, input, .nil delimSet input, .inr (.inl hunclosed)⟩
        · have hpadded := Margins.padded_trim isWhitespace body
          generalize Margins.trim isWhitespace body = contents at hpadded
          have hspells : (∃ tag, Spells contents braces tag) ∨
              contents.head? = some '=' ∧ ∀ delimSet', ¬ SetsDelimiters contents delimSet' := by
            by_cases hset : contents.head? = some '='
            · by_cases hsets : ∃ delimSet', SetsDelimiters contents delimSet'
              · obtain ⟨delimSet', hsets⟩ := hsets
                exact .inl ⟨_, .setDelimiter hsets⟩
              · exact .inr ⟨hset, not_exists.mp hsets⟩
            · exact .inl (exists_spells braces hset)
          rcases hspells with ⟨tag, hspells⟩ | ⟨hset, hnone⟩
          · have htag : TagAt delimSet input tag rest :=
              ⟨braces, body, contents, hclosed, hpadded, hspells⟩
            obtain ⟨items, delimSet', rest', hreads, hend⟩ :=
              ih rest.length (htag.length_lt hd) (htag.proper hd) rest rfl
            exact ⟨_, delimSet', rest', .tag htag hreads, hend⟩
          · exact ⟨[], delimSet, input, .nil delimSet input, .inr (.inr
              ⟨braces, body, rest, contents, hclosed, hpadded, hset, hnone⟩)⟩
      · obtain ⟨unit, rest, rfl, hunit⟩ := exists_textUnit hne
        obtain ⟨items, delimSet', rest', hreads, hend⟩ :=
          ih rest.length hunit.length_lt hd rest rfl
        exact ⟨_, delimSet', rest', .text hunit hbegin hreads, hend⟩

theorem parseWith_error (hd : delimSet.Proper)
    (h : HasUnclosedTag delimSet input ∨ HasMalformedTag delimSet input ∨
      HasImproperNesting delimSet input) :
    ∃ e, parseWith delimSet input = .error e ∧ e ≠ .exhausted := by
  rcases h with ⟨items, delimSet', rest, hreads, htag⟩ | ⟨items, delimSet', rest, hreads, htag⟩ |
    ⟨items, delimSet', hreads, hnested⟩
  · exact hreads.parse_error hd (.inl htag)
  · exact hreads.parse_error hd (.inr htag)
  · rcases hreads.parse hd with ⟨e, he, hne, -⟩ | ⟨comps, -, -, hnested'⟩
    · exact ⟨e, he, hne⟩
    · exact absurd hnested' hnested

theorem parse_of_error {e : ParseError} (h : parseWith delimSet input = .error e)
    (hne : e ≠ .exhausted) :
    ∃ v delimSet', ({} : MustacheView).parse input delimSet = .ok (v, delimSet') ∧
      v.isValid = false := by
  have hnew := parse_new input delimSet
  rw [h] at hnew
  generalize ({} : MustacheView).parse input delimSet = r at hnew ⊢
  cases hnew with
  | error comps delimSet' e => exact ⟨_, delimSet', rfl, rfl⟩
  | exhausted => exact absurd rfl hne

theorem parse_of_ok {comps : List Component} (h : parseWith delimSet input = .ok comps) :
    ∃ delimSet', ({} : MustacheView).parse input delimSet = .ok (⟨comps, none⟩, delimSet') := by
  have hnew := parse_new input delimSet
  rw [h] at hnew
  generalize ({} : MustacheView).parse input delimSet = r at hnew ⊢
  cases hnew with
  | done comps delimSet' => exact ⟨delimSet', rfl⟩

theorem exists_parse (hd : delimSet.Proper) (input : List Char) :
    ∃ v delimSet', ({} : MustacheView).parse input delimSet = .ok (v, delimSet') := by
  have hfails : (∃ e, parseWith delimSet input = .error e ∧ e ≠ .exhausted) →
      ∃ v delimSet', ({} : MustacheView).parse input delimSet = .ok (v, delimSet') := by
    rintro ⟨e, he, hne⟩
    obtain ⟨v, delimSet', hparse, -⟩ := parse_of_error he hne
    exact ⟨v, delimSet', hparse⟩
  obtain ⟨items, delimSet₁, rest, hreads, hend⟩ := exists_reads hd input
  rcases hend with rfl | htag
  · rcases hreads.parse hd with ⟨e, he, hne, -⟩ | ⟨comps, hcomps, -⟩
    · exact hfails ⟨e, he, hne⟩
    · obtain ⟨delimSet', hparse⟩ := parse_of_ok hcomps
      exact ⟨_, delimSet', hparse⟩
  · exact hfails (hreads.parse_error hd htag)

end Runs

/-- A new view parses every template, for delimiters that are not both empty. There is an error
if and only if a tag is not closed, a tag that sets delimiters does not name two, or the tags of
the sections are not nested; without an error the template is the items of the tree. -/
theorem parse_reads (delimSet : DelimiterSet) (hd : delimSet.Proper) (input : List Char) :
    ∃ v delimSet', ({} : MustacheView).parse input delimSet = .ok (v, delimSet') ∧
      (v.isValid = false ↔ HasUnclosedTag delimSet input ∨ HasMalformedTag delimSet input ∨
        HasImproperNesting delimSet input) ∧
      (v.isValid = true →
        ∃ delimSet'', Reads delimSet input (treeItems v.components) delimSet'' []) := by
  have hfails : (HasUnclosedTag delimSet input ∨ HasMalformedTag delimSet input ∨
      HasImproperNesting delimSet input) → ∀ e, parseWith delimSet input = .error e →
        e ≠ .exhausted → ∃ v delimSet', ({} : MustacheView).parse input delimSet =
          .ok (v, delimSet') ∧ (v.isValid = false ↔ HasUnclosedTag delimSet input ∨
            HasMalformedTag delimSet input ∨ HasImproperNesting delimSet input) ∧
          (v.isValid = true →
            ∃ delimSet'', Reads delimSet input (treeItems v.components) delimSet'' []) := by
    intro hwrong e he hne
    obtain ⟨v, delimSet', hparse, hvalid⟩ := parse_of_error he hne
    refine ⟨v, delimSet', hparse, iff_of_true hvalid hwrong, fun hvalid' => ?_⟩
    rw [hvalid] at hvalid'
    cases hvalid'
  obtain ⟨items, delimSet₁, rest, hreads, hend⟩ := exists_reads hd input
  rcases hend with rfl | htag
  · rcases hreads.parse hd with ⟨e, he, hne, hnested⟩ | ⟨comps, hcomps, hitems, hnested⟩
    · exact hfails (.inr (.inr ⟨items, delimSet₁, hreads, hnested⟩)) e he hne
    · obtain ⟨delimSet', hparse⟩ := parse_of_ok hcomps
      refine ⟨_, delimSet', hparse, iff_of_false (fun hvalid => by cases hvalid)
        fun hwrong => ?_, fun _ => ?_⟩
      · obtain ⟨e, he, -⟩ := parseWith_error hd hwrong
        rw [hcomps] at he
        cases he
      · rw [← hitems] at hreads
        exact ⟨delimSet₁, hreads⟩
  · obtain ⟨e, he, hne⟩ := hreads.parse_error hd htag
    refine hfails ?_ e he hne
    exact htag.imp (fun h => ⟨items, delimSet₁, rest, hreads, h⟩)
      fun h => .inl ⟨items, delimSet₁, rest, hreads, h⟩

theorem parse_reads_text : ({} : DelimiterSet).Proper ∧
    ∃ v delimSet', ({} : MustacheView).parse ['a'] {} = .ok (v, delimSet') ∧
      (v.isValid = false ↔ HasUnclosedTag {} ['a'] ∨ HasMalformedTag {} ['a'] ∨
        HasImproperNesting {} ['a']) ∧
      (v.isValid = true →
        ∃ delimSet'', Reads {} ['a'] (treeItems v.components) delimSet'' []) :=
  ⟨.inl (by decide), parse_reads {} (.inl (by decide)) ['a']⟩

theorem scanStep_empty (root : List Component) :
    scanStep ['a'] ⟨0, ⟨[], []⟩, false, [], [], root⟩ =
      .ok (.next ⟨0, ⟨[], []⟩, false, [], [], root ++ [.variableTag []]⟩) := rfl

/-- `{{&a}}` and `{{{a}}}` have the same tree, a delimiter that begins with a line feed is not
found in a line break of two characters, and with empty delimiters the loop does not end. -/
theorem not_writesBack :
    (¬ ∃ write : DelimiterSet → List Component → List Char, ∀ input v delimSet',
      ({} : MustacheView).parse input {} = .ok (v, delimSet') → v.isValid = true →
        write {} v.components = input) ∧
    (∃ v delimSet', ({} : MustacheView).parse ['\r', '\n'] ⟨['\n'], ['|']⟩ = .ok (v, delimSet') ∧
      v.isValid = true) ∧
    ∀ n, loop (scanStep ['a']) .exhausted n ⟨0, ⟨[], []⟩, false, [], [], []⟩ =
      .error .exhausted := by
  refine ⟨?_, ⟨⟨[.text ['\r', '\n']], none⟩, _, rfl, rfl⟩, fun n => ?_⟩
  · rintro ⟨write, hwrite⟩
    have hsigil := hwrite ['\x7b', '\x7b', '&', 'a', '\x7d', '\x7d']
      ⟨[.unescapedVariable ['a']], none⟩ {} rfl rfl
    have hbraces := hwrite ['\x7b', '\x7b', '\x7b', 'a', '\x7d', '\x7d', '\x7d']
      ⟨[.unescapedVariable ['a']], none⟩ {} rfl rfl
    have hlength := congrArg List.length (hsigil.symm.trans hbraces)
    cases hlength
  · generalize ([] : List Component) = root
    induction n generalizing root with
    | zero => rfl
    | succ n ih =>
        rw [loop_of_next (scanStep_empty root)]
        exact ih _

end Webpp.Views
