import Webpp.Views.MustacheParse

/-!
# Sections

What a template on one line is to expand to, and what becomes of it: the line is dropped as
soon as the children of one section are rendered, and `is_false` and `is_non_empty_list` are
the wrong way round.
-/

namespace Webpp.Views

variable {ctx : Context} {renderPartial : PartialRenderer} {name : List Char}
  {children : List Component} {L : Lambdas}

/-! ## Data and templates -/

namespace Variable

mutual

/-- Booleans, texts and lists of them. -/
def isPlain : Variable → Bool
  | bool _ _ => true
  | string _ _ => true
  | list _ items => arePlain items
  | _ => false

def arePlain : List Variable → Bool
  | [] => true
  | item :: items => item.isPlain && arePlain items

end

theorem arePlain_iff (items : List Variable) :
    arePlain items = true ↔ ∀ item ∈ items, item.isPlain = true := by
  induction items with
  | nil => exact iff_of_true rfl fun item h => absurd h List.not_mem_nil
  | cons item items ih => rw [arePlain, Bool.and_eq_true, ih, List.forall_mem_cons]

mutual

theorem isPlain_get {inputKey : List Char} {v w : Variable} (h : v.isPlain = true)
    (hget : v.get inputKey = some w) : w.isPlain = true := by
  match v with
  | list key items =>
      rw [Variable.get] at hget
      split at hget
      · cases hget
        exact h
      · exact isPlain_getIn h hget
  | bool key val =>
      rw [Variable.get] at hget
      · split at hget
        · cases hget
          exact h
        · cases hget
      · exact fun key items h => nomatch h
  | string key str =>
      rw [Variable.get] at hget
      · split at hget
        · cases hget
          exact h
        · cases hget
      · exact fun key items h => nomatch h
  | lambda key id => cases h
  | partialText key text => cases h

theorem isPlain_getIn {inputKey : List Char} {items : List Variable} {w : Variable}
    (h : arePlain items = true) (hget : getIn inputKey items = some w) : w.isPlain = true := by
  match items with
  | [] => cases hget
  | item :: items =>
      rw [arePlain, Bool.and_eq_true] at h
      rw [getIn] at hget
      split at hget
      · rename_i var hvar
        cases hget
        exact isPlain_get h.1 hvar
      · exact isPlain_getIn h.2 hget

end

end Variable

/-- All variables of the stack are plain. -/
def Context.Plain (ctx : Context) : Prop := ∀ v ∈ ctx, v.isPlain = true

theorem isPlain_foldlM {names : List (List Char)} {v w : Variable} (h : v.isPlain = true)
    (hget : names.foldlM (fun var n => Variable.get n var) v = some w) : w.isPlain = true := by
  induction names generalizing v with
  | nil =>
      cases hget
      exact h
  | cons n names ih =>
      rw [List.foldlM_cons] at hget
      cases hn : v.get n with
      | none =>
          rw [hn] at hget
          cases hget
      | some u =>
          rw [hn] at hget
          exact ih (Variable.isPlain_get h hn) hget

theorem Context.Plain.get (h : ctx.Plain) {v : Variable}
    (hget : ctx.get name = .ok (some v)) : v.isPlain = true := by
  unfold Context.get at hget
  split at hget
  · split at hget
    · cases hget
    · cases hget
      exact h _ List.mem_cons_self
  · split at hget
    · split at hget
      · cases hget
      · have hpath := Except.ok.inj hget
        obtain ⟨item, hitem, hfound⟩ := List.exists_of_findSome?_eq_some hpath
        exact isPlain_foldlM (h item hitem) hfound
    · have hname := Except.ok.inj hget
      obtain ⟨item, hitem, hfound⟩ := List.exists_of_findSome?_eq_some hname
      exact Variable.isPlain_get (h item hitem) hfound

namespace Component

def isSection : Component → Bool
  | sectionBegin _ _ _ => true
  | sectionBeginInverted _ _ => true
  | _ => false

mutual

/-- Text without newlines, variables and sections. -/
def isPlain : Component → Bool
  | .text str => str.all fun c => c != '\n' && c != '\r'
  | variableTag _ => true
  | unescapedVariable _ => true
  | sectionBegin _ _ children => arePlain children
  | sectionBeginInverted _ children => arePlain children
  | _ => false

def arePlain : List Component → Bool
  | [] => true
  | comp :: comps => comp.isPlain && arePlain comps

end

theorem arePlain_iff (comps : List Component) :
    arePlain comps = true ↔ ∀ comp ∈ comps, comp.isPlain = true := by
  induction comps with
  | nil => exact iff_of_true rfl fun comp h => absurd h List.not_mem_nil
  | cons comp comps ih => rw [arePlain, Bool.and_eq_true, ih, List.forall_mem_cons]

mutual

theorem induction {P : Component → Prop}
    (hbegin : ∀ name str children, (∀ c ∈ children, P c) → P (sectionBegin name str children))
    (hinverted : ∀ name children, (∀ c ∈ children, P c) → P (sectionBeginInverted name children))
    (hother : ∀ c : Component, c.isSection = false → P c) (c : Component) : P c := by
  match c with
  | .sectionBegin name str children =>
      exact hbegin name str children (induction_list hbegin hinverted hother children)
  | .sectionBeginInverted name children =>
      exact hinverted name children (induction_list hbegin hinverted hother children)
  | .text str => exact hother _ rfl
  | .variableTag name => exact hother _ rfl
  | .unescapedVariable name => exact hother _ rfl
  | .sectionEnd name => exact hother _ rfl
  | .comment _ => exact hother _ rfl
  | .partialTag name => exact hother _ rfl
  | .setDelimiter delimSet => exact hother _ rfl

theorem induction_list {P : Component → Prop}
    (hbegin : ∀ name str children, (∀ c ∈ children, P c) → P (sectionBegin name str children))
    (hinverted : ∀ name children, (∀ c ∈ children, P c) → P (sectionBeginInverted name children))
    (hother : ∀ c : Component, c.isSection = false → P c) (cs : List Component) :
    ∀ c ∈ cs, P c := by
  match cs with
  | [] => exact fun c h => absurd h List.not_mem_nil
  | c :: cs =>
      intro d hd
      rcases List.mem_cons.mp hd with heq | hd
      · rw [heq]
        exact induction hbegin hinverted hother c
      · exact induction_list hbegin hinverted hother cs d hd

end

end Component

/-! ## What a template is to expand to -/

/-- The variable that a name stands for. -/
def lookup (ctx : Context) (name : List Char) : Option Variable :=
  match ctx.get name with
  | .ok var => var
  | .error _ => none

def variableText (escaped : Bool) : Option Variable → List Char
  | some (.string _ str) => if escaped then htmlEscape str else str
  | _ => []

/-- The stacks that the children of a section are to be rendered with: once for `true` and
for a text, and once for every element of a list. -/
def childContexts (ctx : Context) : Option Variable → List Context
  | some (.bool key val) => if val then [.bool key val :: ctx] else []
  | some (.list _ items) => items.map fun item => item :: ctx
  | some var => [var :: ctx]
  | none => []

mutual

def expandComponent (ctx : Context) : Component → List Char
  | .text text => text
  | .variableTag name => variableText true (lookup ctx name)
  | .unescapedVariable name => variableText false (lookup ctx name)
  | .sectionBegin name _ children =>
      (childContexts ctx (lookup ctx name)).flatMap fun ctx => expand ctx children
  | .sectionBeginInverted name children =>
      if (childContexts ctx (lookup ctx name)).isEmpty then expand ctx children else []
  | _ => []

/-- The expansion of a template. -/
def expand (ctx : Context) : List Component → List Char
  | [] => []
  | comp :: comps => expandComponent ctx comp ++ expand ctx comps

end

/-! ## What the code does with it -/

/-- The stacks that the code walks over the children of a section with. -/
def walkedContexts (ctx : Context) : Component → List Context
  | .sectionBegin name _ _ =>
      match lookup ctx name with
      | some var => if var.isFalse then [] else sectionContexts ctx (some var)
      | none => []
  | .sectionBeginInverted name _ =>
      if (lookup ctx name).all Variable.isFalse then sectionContexts ctx (lookup ctx name) else []
  | _ => []

/-- The name can be looked up: `.` needs a variable, and no other name starts with a dot. -/
def HasName (ctx : Context) (name : List Char) : Prop :=
  if name = ['.'] then ctx ≠ [] else name.head? ≠ some '.'

mutual

/-- All names that the walk comes across can be looked up. -/
def ComponentNames (ctx : Context) : Component → Prop
  | .variableTag name => HasName ctx name
  | .unescapedVariable name => HasName ctx name
  | .sectionBegin name sectionText children => HasName ctx name ∧
      ∀ ctx' ∈ walkedContexts ctx (.sectionBegin name sectionText children),
        ChildNames ctx' children
  | .sectionBeginInverted name children => HasName ctx name ∧
      ∀ ctx' ∈ walkedContexts ctx (.sectionBeginInverted name children),
        ChildNames ctx' children
  | _ => True

def ChildNames (ctx : Context) : List Component → Prop
  | [] => True
  | comp :: comps => ComponentNames ctx comp ∧ ChildNames ctx comps

end

/-- The text of a component that is no section. -/
def ownText (ctx : Context) (comp : Component) : List Char :=
  if comp.isSection then [] else expandComponent ctx comp

/-- No section on the line is to render anything. Where the children of one are rendered all
the same, there is no text on the line; otherwise there is none, or not only spaces and
tabs. -/
structure ExpandsAsIs (ctx : Context) (comps : List Component) : Prop where
  names : ChildNames ctx comps
  sections : ∀ comp ∈ comps, comp.isSection = true → expandComponent ctx comp = []
  walked : (∃ comp ∈ comps, walkedContexts ctx comp ≠ []) → comps.flatMap (ownText ctx) = []
  blank : (comps.flatMap (ownText ctx)).all isBlank = true → comps.flatMap (ownText ctx) = []

/-! ## Names -/

theorem get_of_hasName (h : HasName ctx name) :
    ctx.get name = .ok (lookup ctx name) := by
  have hok : ∃ var, ctx.get name = .ok var := by
    unfold HasName at h
    unfold Context.get
    split
    · rename_i hdot
      rw [if_pos hdot] at h
      split
      · exact absurd rfl h
      · exact ⟨_, rfl⟩
    · rename_i hdot
      rw [if_neg hdot] at h
      split
      · exact ⟨_, rfl⟩
      · exact ⟨_, rfl⟩
  obtain ⟨var, hvar⟩ := hok
  rw [lookup, hvar]

theorem get_of_not_hasName (h : ¬ HasName ctx name) :
    ∃ fault, ctx.get name = .error fault := by
  unfold HasName at h
  unfold Context.get
  split
  · rename_i hdot
    rw [if_pos hdot] at h
    rw [not_not.mp h]
    exact ⟨_, rfl⟩
  · rename_i hdot
    rw [if_neg hdot] at h
    have hhead := not_not.mp h
    rw [if_pos (List.mem_of_head? hhead), if_pos hhead]
    exact ⟨_, rfl⟩

theorem isPlain_lookup (h : ctx.Plain) {v : Variable}
    (hlookup : lookup ctx name = some v) : v.isPlain = true := by
  rw [lookup] at hlookup
  split at hlookup
  · rename_i var hvar
    rw [hlookup] at hvar
    exact h.get hvar
  · cases hlookup

theorem plain_of_mem_sectionContexts {ctx ctx' : Context} (h : ctx.Plain)
    (hmem : ctx' ∈ sectionContexts ctx (lookup ctx name)) : ctx'.Plain := by
  cases hlookup : lookup ctx name with
  | none =>
      rw [hlookup] at hmem
      rw [List.mem_singleton.mp hmem]
      exact h
  | some var =>
      have hvar := isPlain_lookup h hlookup
      rw [hlookup, sectionContexts] at hmem
      split at hmem
      · obtain ⟨item, hitem, rfl⟩ := List.mem_map.mp hmem
        refine List.forall_mem_cons.mpr ⟨?_, h⟩
        cases var with
        | list key items => exact (Variable.arePlain_iff items).mp hvar item hitem
        | bool key val => cases hitem
        | string key str => cases hitem
        | lambda key id => cases hitem
        | partialText key text => cases hitem
      · rw [List.mem_singleton.mp hmem]
        exact List.forall_mem_cons.mpr ⟨hvar, h⟩

/-! ## The operations of a line -/

def appended (ops : List LineOp) : List Char :=
  ops.flatMap fun
    | .append text => text
    | _ => []

/-- Operations that do not end the line. They mark it when the children of a section are
rendered, and append the given text if none are. -/
structure OnLine (ops : List LineOp) (walked : Prop) (text : List Char) : Prop where
  noEnd : ∀ newline, .endLine newline ∉ ops
  tagged : .sectionTag ∈ ops ↔ walked
  text : ¬ walked → appended ops = text

theorem OnLine.nil : OnLine [] False [] :=
  ⟨fun _ => List.not_mem_nil, iff_of_false List.not_mem_nil not_false, fun _ => rfl⟩

theorem OnLine.append {text : List Char} : OnLine [.append text] False text := by
  refine ⟨fun newline h => ?_, iff_of_false (fun h => ?_) not_false, fun _ => ?_⟩
  · cases List.mem_singleton.mp h
  · cases List.mem_singleton.mp h
  · exact List.append_nil text

theorem OnLine.skippedTag : OnLine [.skippedTag] False [] := by
  refine ⟨fun newline h => ?_, iff_of_false (fun h => ?_) not_false, fun _ => rfl⟩
  · cases List.mem_singleton.mp h
  · cases List.mem_singleton.mp h

theorem OnLine.seq {ops ops' : List LineOp} {walked walked' : Prop} {text text' : List Char}
    (h : OnLine ops walked text) (h' : OnLine ops' walked' text') :
    OnLine (ops ++ ops') (walked ∨ walked') (text ++ text') := by
  refine ⟨fun newline hmem => ?_, ?_, fun hnot => ?_⟩
  · rcases List.mem_append.mp hmem with hmem | hmem
    · exact h.noEnd newline hmem
    · exact h'.noEnd newline hmem
  · rw [List.mem_append, h.tagged, h'.tagged]
  · rw [not_or] at hnot
    rw [appended, List.flatMap_append, ← h.text hnot.1, ← h'.text hnot.2]
    rfl

theorem output_of_noEnd {ops : List LineOp} (h : ∀ newline, .endLine newline ∉ ops)
    (b : LineBuffer) :
    output b (ops ++ [.endLine none]) =
      renderCurrentLine ⟨b.data ++ appended ops,
        b.containedSectionTag || decide (.sectionTag ∈ ops)⟩ none := by
  induction ops generalizing b with
  | nil =>
      rw [List.nil_append, output, output, List.append_nil]
      simp [appended]
  | cons op ops ih =>
      have hrest := ih fun newline hmem => h newline (List.mem_cons_of_mem _ hmem)
      cases op with
      | append text =>
          rw [List.cons_append, output, hrest]
          simp [appended]
      | sectionTag =>
          rw [List.cons_append, output, hrest]
          simp [appended]
      | skippedTag =>
          rw [List.cons_append, output, hrest]
          simp [appended]
      | endLine newline => exact absurd List.mem_cons_self (h newline)

/-! ## The walk over a line -/

theorem RenderState.add_nil (s : RenderState) : s.add [] = s := by
  rw [RenderState.add, List.append_nil]

theorem RenderState.add_add (s : RenderState) (ops ops' : List LineOp) :
    (s.add ops).add ops' = s.add (ops ++ ops') := by
  simp only [RenderState.add, List.append_assoc]

/-- A step of the walk adds operations on the line, or it fails in every state. -/
def StepOnLine (step : RenderState → Except RenderFault RenderState) (names walked : Prop)
    (text : List Char) : Prop :=
  (names ∧ ∃ ops, OnLine ops walked text ∧ ∀ s, step s = .ok (s.add ops)) ∨
    (¬ names ∧ ∀ s, ∃ fault, step s = .error fault)

/-- The same of a component, after which the walk goes on. -/
def ComponentOnLine (L : Lambdas) (renderPartial : PartialRenderer) (ctx : Context)
    (comp : Component) : Prop :=
  (ComponentNames ctx comp ∧ ∃ control ops, control ≠ WalkControl.stop ∧
      OnLine ops (walkedContexts ctx comp ≠ []) (ownText ctx comp) ∧
      ∀ s, renderComponent L renderPartial ctx s comp = .ok (control, s.add ops)) ∨
    (¬ ComponentNames ctx comp ∧
      ∀ s, ∃ fault, renderComponent L renderPartial ctx s comp = .error fault)

theorem walkChildren_onLine
    {comps : List Component} (h : ∀ comp ∈ comps, ComponentOnLine L renderPartial ctx comp) :
    StepOnLine (fun s => walkChildren L renderPartial ctx s comps) (ChildNames ctx comps)
      (∃ comp ∈ comps, walkedContexts ctx comp ≠ []) (comps.flatMap (ownText ctx)) := by
  induction comps with
  | nil =>
      refine .inl ⟨trivial, [], ?_, fun s => ?_⟩
      · simpa using OnLine.nil
      · rw [RenderState.add_nil]
        rfl
  | cons comp comps ih =>
      rw [List.forall_mem_cons] at h
      have hstep : ∀ {control ops}, control ≠ WalkControl.stop →
          (∀ s, renderComponent L renderPartial ctx s comp = .ok (control, s.add ops)) →
          ∀ s, walkChildren L renderPartial ctx s (comp :: comps) =
            walkChildren L renderPartial ctx (s.add ops) comps := by
        intro control ops hcontrol hcomp s
        rw [walkChildren, hcomp s]
        exact if_neg hcontrol
      rcases h.1 with ⟨hnames, control, ops, hcontrol, hops, hcomp⟩ | ⟨hnames, hcomp⟩
      · rcases ih h.2 with ⟨hrest, ops', hops', hwalk⟩ | ⟨hrest, hwalk⟩
        · refine .inl ⟨⟨hnames, hrest⟩, ops ++ ops', ?_, fun s => ?_⟩
          · rw [List.exists_mem_cons_iff, List.flatMap_cons]
            exact hops.seq hops'
          · rw [← RenderState.add_add]
            exact (hstep hcontrol hcomp s).trans (hwalk _)
        · refine .inr ⟨fun hchild => hrest hchild.2, fun s => ?_⟩
          obtain ⟨fault, hfault⟩ := hwalk (s.add ops)
          exact ⟨fault, (hstep hcontrol hcomp s).trans hfault⟩
      · refine .inr ⟨fun hchild => hnames hchild.1, fun s => ?_⟩
        obtain ⟨fault, hfault⟩ := hcomp s
        refine ⟨fault, ?_⟩
        change walkChildren L renderPartial ctx s (comp :: comps) = _
        rw [walkChildren, hfault]
        rfl

theorem OnLine.section_cons {ops ops' : List LineOp} {walked walked' : Prop}
    {text text' : List Char} (h : OnLine ops walked text) (h' : OnLine ops' walked' text')
    {P : Prop} (hP : P) (text'' : List Char) :
    OnLine (.sectionTag :: ops ++ (.sectionTag :: ops')) P text'' := by
  refine ⟨fun newline hmem => ?_, iff_of_true List.mem_cons_self hP, fun hnot => absurd hP hnot⟩
  rcases List.mem_append.mp hmem with hmem | hmem
  · rcases List.mem_cons.mp hmem with heq | hmem
    · cases heq
    · exact h.noEnd newline hmem
  · rcases List.mem_cons.mp hmem with heq | hmem
    · cases heq
    · exact h'.noEnd newline hmem

theorem renderSection_onLine {walk : Context → RenderState → Except RenderFault RenderState}
    {contexts : List Context} {names walked : Context → Prop} {text : Context → List Char}
    (h : ∀ ctx ∈ contexts, StepOnLine (walk ctx) (names ctx) (walked ctx) (text ctx)) :
    StepOnLine (renderSection walk contexts) (∀ ctx ∈ contexts, names ctx) (contexts ≠ [])
      [] := by
  induction contexts with
  | nil =>
      refine .inl ⟨fun ctx hctx => absurd hctx List.not_mem_nil, [], ?_, fun s => ?_⟩
      · simpa using OnLine.nil
      · rw [RenderState.add_nil]
        rfl
  | cons ctx contexts ih =>
      rw [List.forall_mem_cons] at h
      rcases h.1 with ⟨hnames, ops, hops, hwalk⟩ | ⟨hnames, hwalk⟩
      · have hstep : ∀ s, renderSection walk (ctx :: contexts) s =
            renderSection walk contexts (s.add (.sectionTag :: ops ++ [.sectionTag])) := by
          intro s
          rw [renderSection, hwalk]
          change renderSection walk contexts _ = _
          rw [RenderState.add_add, RenderState.add_add]
          rfl
        rcases ih h.2 with ⟨hrest, ops', hops', hsection⟩ | ⟨hrest, hsection⟩
        · refine .inl ⟨List.forall_mem_cons.mpr ⟨hnames, hrest⟩,
            .sectionTag :: ops ++ (.sectionTag :: ops'),
            hops.section_cons hops' (List.cons_ne_nil _ _) _, fun s => ?_⟩
          rw [hstep, hsection, RenderState.add_add, List.append_assoc]
          rfl
        · refine .inr ⟨fun hall => hrest (List.forall_mem_cons.mp hall).2, fun s => ?_⟩
          rw [hstep]
          exact hsection _
      · refine .inr ⟨fun hall => hnames (List.forall_mem_cons.mp hall).1, fun s => ?_⟩
        obtain ⟨fault, hfault⟩ := hwalk (s.add [.sectionTag])
        refine ⟨fault, ?_⟩
        rw [renderSection, hfault]
        rfl

theorem section_onLine {comp : Component} {pre : List LineOp}
    (hsection : comp.isSection = true) (hpre : OnLine pre False [])
    (hnames : ComponentNames ctx comp ↔
      HasName ctx name ∧ ∀ ctx' ∈ walkedContexts ctx comp, ChildNames ctx' children)
    (hfault : ∀ s fault, ctx.get name = .error fault →
      renderComponent L renderPartial ctx s comp = .error fault)
    (hrun : ctx.get name = .ok (lookup ctx name) →
      ∀ s, renderComponent L renderPartial ctx s comp =
        (renderSection (fun ctx s => walkChildren L renderPartial ctx s children)
          (walkedContexts ctx comp) (s.add pre)).map fun s => (.skip, s))
    (hchildren : ∀ ctx' ∈ walkedContexts ctx comp,
      ∀ child ∈ children, ComponentOnLine L renderPartial ctx' child) :
    ComponentOnLine L renderPartial ctx comp := by
  by_cases hname : HasName ctx name
  · have hcontexts := renderSection_onLine fun ctx' hctx' =>
      walkChildren_onLine (hchildren ctx' hctx')
    have hstep := hrun (get_of_hasName hname)
    have hown : ownText ctx comp = [] := if_pos hsection
    rcases hcontexts with ⟨hall, ops, hops, hwalk⟩ | ⟨hall, hwalk⟩
    · refine .inl ⟨hnames.mpr ⟨hname, hall⟩, .skip, pre ++ ops, nofun, ?_, fun s => ?_⟩
      · have hseq := hpre.seq hops
        rw [false_or] at hseq
        rw [hown]
        exact hseq
      · rw [hstep, hwalk, RenderState.add_add]
        rfl
    · refine .inr ⟨fun h => hall (hnames.mp h).2, fun s => ?_⟩
      obtain ⟨fault, hfails⟩ := hwalk (s.add pre)
      refine ⟨fault, ?_⟩
      rw [hstep, hfails]
      rfl
  · obtain ⟨fault, hget⟩ := get_of_not_hasName hname
    exact .inr ⟨fun h => hname (hnames.mp h).1, fun s => ⟨fault, hfault s fault hget⟩⟩

theorem skipped_onLine {name str : List Char}
    (hwalked : walkedContexts ctx (.sectionBegin name str children) = [])
    (hfault : ∀ s fault, ctx.get name = .error fault →
      renderComponent L renderPartial ctx s (.sectionBegin name str children) = .error fault)
    (hrun : ctx.get name = .ok (lookup ctx name) →
      ∀ s, renderComponent L renderPartial ctx s (.sectionBegin name str children) =
        .ok (.skip, s.add [.skippedTag])) :
    ComponentOnLine L renderPartial ctx (.sectionBegin name str children) := by
  refine section_onLine rfl OnLine.skippedTag Iff.rfl hfault (fun hget s => ?_)
    fun ctx' hctx' => ?_
  · rw [hrun hget s, hwalked]
    rfl
  · rw [hwalked] at hctx'
    cases hctx'

theorem renderComponent_sectionBegin (L : Lambdas) (renderPartial : PartialRenderer)
    {var : Variable} (hvar : var.isPlain = true)
    (hget : ctx.get name = .ok (some var)) (str : List Char) (children : List Component)
    (s : RenderState) :
    renderComponent L renderPartial ctx s (.sectionBegin name str children) =
      if var.isFalse then .ok (.skip, s.add [.skippedTag])
      else
        (renderSection (fun ctx s => walkChildren L renderPartial ctx s children)
          (sectionContexts ctx (some var)) s).map fun s => (.skip, s) := by
  rw [renderComponent, hget]
  cases var with
  | lambda key id => cases hvar
  | partialText key text => cases hvar
  | bool key val => rfl
  | string key str => rfl
  | list key items => rfl

theorem sectionBegin_onLine (hplain : ctx.Plain) (name str : List Char)
    (hchildren : ∀ ctx' : Context, ctx'.Plain →
      ∀ child ∈ children, ComponentOnLine L renderPartial ctx' child) :
    ComponentOnLine L renderPartial ctx (.sectionBegin name str children) := by
  have hfault : ∀ s fault, ctx.get name = .error fault →
      renderComponent L renderPartial ctx s (.sectionBegin name str children) =
        .error fault := by
    intro s fault hget
    rw [renderComponent, hget]
    rfl
  cases hlookup : lookup ctx name with
  | none =>
      refine skipped_onLine ?_ hfault fun hget s => ?_
      · rw [walkedContexts, hlookup]
      · rw [renderComponent, hget, hlookup]
        rfl
  | some var =>
      have hvar := isPlain_lookup hplain hlookup
      have hrun := fun hget : ctx.get name = .ok (some var) =>
        renderComponent_sectionBegin L renderPartial hvar hget str children
      cases hfalse : var.isFalse with
      | true =>
          refine skipped_onLine ?_ hfault fun hget s => ?_
          · rw [walkedContexts, hlookup]
            exact if_pos hfalse
          · rw [hlookup] at hget
            rw [hrun hget, if_pos hfalse]
      | false =>
          have hnot : ¬ var.isFalse = true := ne_true_of_eq_false hfalse
          have hwalked : walkedContexts ctx (.sectionBegin name str children) =
              sectionContexts ctx (lookup ctx name) := by
            rw [walkedContexts, hlookup]
            exact if_neg hnot
          refine section_onLine rfl OnLine.nil Iff.rfl hfault (fun hget s => ?_)
            fun ctx' hctx' => ?_
          · rw [hlookup] at hget
            rw [hrun hget, if_neg hnot, hwalked, hlookup, RenderState.add_nil]
          · rw [hwalked] at hctx'
            exact hchildren ctx' (plain_of_mem_sectionContexts hplain hctx')

theorem sectionBeginInverted_onLine (hplain : ctx.Plain) (name : List Char)
    (hchildren : ∀ ctx' : Context, ctx'.Plain →
      ∀ child ∈ children, ComponentOnLine L renderPartial ctx' child) :
    ComponentOnLine L renderPartial ctx (.sectionBeginInverted name children) := by
  refine section_onLine rfl OnLine.skippedTag Iff.rfl (fun s fault hget => ?_)
    (fun hget s => ?_) fun ctx' hctx' => ?_
  · rw [renderComponent, hget]
    rfl
  · rw [renderComponent, hget, walkedContexts]
    change (if (lookup ctx name).all Variable.isFalse = true then _ else _) = _
    split
    · rfl
    · rfl
  · rw [walkedContexts] at hctx'
    split at hctx'
    · exact hchildren ctx' (plain_of_mem_sectionContexts hplain hctx')
    · cases hctx'

theorem renderVariableTag_onLine (L : Lambdas) (hplain : ctx.Plain)
    (escaped : Bool) (hname : HasName ctx name) :
    ∃ ops, OnLine ops False (variableText escaped (lookup ctx name)) ∧
      ∀ s, renderVariableTag L ctx name escaped s = .ok (.walk, s.add ops) := by
  have hget := get_of_hasName hname
  cases hlookup : lookup ctx name with
  | none =>
      refine ⟨[], OnLine.nil, fun s => ?_⟩
      rw [renderVariableTag, hget, hlookup, RenderState.add_nil]
      rfl
  | some var =>
      have hvar := isPlain_lookup hplain hlookup
      have hrun : ∀ s, renderVariableTag L ctx name escaped s =
          renderVariable L ctx var escaped s := by
        intro s
        rw [renderVariableTag, hget, hlookup]
        rfl
      cases var with
      | lambda key id => cases hvar
      | partialText key text => cases hvar
      | string key str => exact ⟨_, OnLine.append, hrun⟩
      | bool key val =>
          refine ⟨[], OnLine.nil, fun s => ?_⟩
          rw [hrun, RenderState.add_nil]
          rfl
      | list key items =>
          refine ⟨[], OnLine.nil, fun s => ?_⟩
          rw [hrun, RenderState.add_nil]
          rfl

theorem variable_onLine (hplain : ctx.Plain) {comp : Component} (escaped : Bool)
    (hnames : ComponentNames ctx comp ↔ HasName ctx name) (hwalked : walkedContexts ctx comp = [])
    (hown : ownText ctx comp = variableText escaped (lookup ctx name))
    (hrun : ∀ s, renderComponent L renderPartial ctx s comp =
      renderVariableTag L ctx name escaped s) :
    ComponentOnLine L renderPartial ctx comp := by
  by_cases hname : HasName ctx name
  · obtain ⟨ops, hops, htag⟩ := renderVariableTag_onLine L hplain escaped hname
    refine .inl ⟨hnames.mpr hname, .walk, ops, nofun, ?_, fun s => (hrun s).trans (htag s)⟩
    rw [hwalked, hown]
    simpa using hops
  · obtain ⟨fault, hget⟩ := get_of_not_hasName hname
    refine .inr ⟨fun h => hname (hnames.mp h), fun s => ⟨fault, ?_⟩⟩
    rw [hrun, renderVariableTag, hget]
    rfl

theorem text_onLine (L : Lambdas) (renderPartial : PartialRenderer) (ctx : Context)
    {str : List Char} (h : str.all fun c => c != '\n' && c != '\r') :
    ComponentOnLine L renderPartial ctx (.text str) := by
  have hnewline : isNewline str = false := by
    rw [isNewline, Bool.or_eq_false_iff, Bool.or_eq_false_iff]
    refine ⟨⟨?_, ?_⟩, ?_⟩ <;>
    · rw [beq_eq_false_iff_ne]
      rintro rfl
      exact absurd h (by decide)
  refine .inl ⟨trivial, .walk, [.append str], nofun, ?_, fun s => ?_⟩
  · simpa [walkedContexts, ownText, Component.isSection, expandComponent] using OnLine.append
  · rw [renderComponent, textOp, hnewline]
    rfl

theorem component_onLine (L : Lambdas) (renderPartial : PartialRenderer) (comp : Component) :
    comp.isPlain = true → ∀ ctx : Context, ctx.Plain →
      ComponentOnLine L renderPartial ctx comp := by
  induction comp using Component.induction with
  | hbegin name str children ih =>
      intro hcomp ctx hctx
      have hchildren := (Component.arePlain_iff children).mp hcomp
      exact sectionBegin_onLine hctx name str fun ctx' hctx' child hchild =>
        ih child hchild (hchildren child hchild) ctx' hctx'
  | hinverted name children ih =>
      intro hcomp ctx hctx
      have hchildren := (Component.arePlain_iff children).mp hcomp
      exact sectionBeginInverted_onLine hctx name fun ctx' hctx' child hchild =>
        ih child hchild (hchildren child hchild) ctx' hctx'
  | hother comp hsection =>
      intro hcomp ctx hctx
      cases comp with
      | text str => exact text_onLine L renderPartial ctx hcomp
      | variableTag name =>
          exact variable_onLine hctx true Iff.rfl rfl rfl fun s => rfl
      | unescapedVariable name =>
          exact variable_onLine hctx false Iff.rfl rfl rfl fun s => rfl
      | sectionBegin name str children => cases hsection
      | sectionBeginInverted name children => cases hsection
      | sectionEnd name => cases hcomp
      | comment text => cases hcomp
      | partialTag name => cases hcomp
      | setDelimiter delimSet => cases hcomp

/-! ## Renderings -/

theorem expand_eq_flatMap (ctx : Context) (comps : List Component) :
    expand ctx comps = comps.flatMap (expandComponent ctx) := by
  induction comps with
  | nil => rfl
  | cons comp comps ih => rw [expand, List.flatMap_cons, ih]

theorem length_ownText_le (ctx : Context) (comps : List Component) :
    (comps.flatMap (ownText ctx)).length ≤ (expand ctx comps).length ∧
      ((comps.flatMap (ownText ctx)).length = (expand ctx comps).length →
        ∀ comp ∈ comps, comp.isSection = true → expandComponent ctx comp = []) := by
  induction comps with
  | nil => exact ⟨Nat.le_refl _, fun _ comp hcomp => absurd hcomp List.not_mem_nil⟩
  | cons comp comps ih =>
      obtain ⟨hle, heq⟩ := ih
      have hown : (ownText ctx comp).length ≤ (expandComponent ctx comp).length := by
        rw [ownText]
        split
        · exact Nat.zero_le _
        · exact Nat.le_refl _
      rw [expand, List.flatMap_cons, List.length_append, List.length_append]
      refine ⟨Nat.add_le_add hown hle, fun hlength comp' hcomp' hsection => ?_⟩
      rcases List.mem_cons.mp hcomp' with rfl | hmem
      · have hnil : ownText ctx comp' = [] := if_pos hsection
        rw [hnil, List.length_nil] at hlength
        exact List.eq_nil_of_length_eq_zero (by omega)
      · exact heq (by omega) comp' hmem hsection

theorem expand_eq_ownText {comps : List Component}
    (h : ∀ comp ∈ comps, comp.isSection = true → expandComponent ctx comp = []) :
    expand ctx comps = comps.flatMap (ownText ctx) := by
  rw [expand_eq_flatMap]
  refine List.flatMap_congr fun comp hcomp => ?_
  rw [ownText]
  split
  · rename_i hsection
    exact h comp hcomp hsection
  · rfl

theorem output_onLine {ops : List LineOp} {walked : Prop} {text : List Char}
    (h : OnLine ops walked text) :
    (walked → output {} (ops ++ [.endLine none]) = []) ∧
      (¬ walked → output {} (ops ++ [.endLine none]) =
        if text.all isBlank then [] else text) := by
  rw [output_of_noEnd h.noEnd, List.nil_append, Bool.false_or, renderCurrentLine]
  constructor
  · intro hwalked
    rw [decide_eq_true (h.tagged.mpr hwalked)]
    rfl
  · intro hwalked
    rw [decide_eq_false (mt h.tagged.mp hwalked), h.text hwalked,
      LineBuffer.isEmptyOrContainsOnlyWhitespace]
    cases hblank : text.all isBlank with
    | true => rfl
    | false => exact List.append_nil text

theorem render_onLine (L : Lambdas) (n : ℕ) {data : Context} {comps : List Component}
    (hdata : data.Plain) (hcomps : Component.arePlain comps = true) :
    (ChildNames data comps ∧ ∃ ops,
        OnLine ops (∃ comp ∈ comps, walkedContexts data comp ≠ []) (comps.flatMap (ownText data)) ∧
        render L n data comps = .ok (output {} (ops ++ [.endLine none]))) ∨
      (¬ ChildNames data comps ∧ ∃ fault, render L n data comps = .error fault) := by
  have hplain := (Component.arePlain_iff comps).mp hcomps
  rcases walkChildren_onLine fun comp hcomp =>
    component_onLine L (renderTemplate L n) comp (hplain comp hcomp) data hdata with
    ⟨hnames, ops, hops, hwalk⟩ | ⟨hnames, hwalk⟩
  · refine .inl ⟨hnames, ops, hops, ?_⟩
    have hrun : walkChildren L (renderTemplate L n) data {} comps =
        .ok (RenderState.add {} ops) := hwalk {}
    rw [render, renderOps, hrun]
    rfl
  · obtain ⟨fault, hfault⟩ := hwalk {}
    refine .inr ⟨hnames, fault, ?_⟩
    change walkChildren L (renderTemplate L n) data {} comps = .error fault at hfault
    rw [render, renderOps, hfault]
    rfl

/-- A template on one line renders to its expansion exactly when the line is put out and has
no more than its own text. -/
theorem render_eq_expand_iff (L : Lambdas) (n : ℕ) (data : Context) (comps : List Component)
    (hdata : data.Plain) (hcomps : Component.arePlain comps = true) :
    render L n data comps = .ok (expand data comps) ↔ ExpandsAsIs data comps := by
  rcases render_onLine L n hdata hcomps with
    ⟨hnames, ops, hops, hrender⟩ | ⟨hnames, fault, hrender⟩
  · obtain ⟨hdropped, hput⟩ := output_onLine hops
    rw [hrender, Except.ok.injEq]
    constructor
    · intro heq
      have hempty : expand data comps = [] → comps.flatMap (ownText data) = [] ∧
          ∀ comp ∈ comps, comp.isSection = true → expandComponent data comp = [] := by
        intro hnil
        obtain ⟨hle, hsections⟩ := length_ownText_le data comps
        rw [hnil, List.length_nil] at hle
        have hown := List.eq_nil_of_length_eq_zero (Nat.le_zero.mp hle)
        refine ⟨hown, hsections ?_⟩
        rw [hnil, hown]
      by_cases hwalked : ∃ comp ∈ comps, walkedContexts data comp ≠ []
      · rw [hdropped hwalked] at heq
        obtain ⟨hown, hsections⟩ := hempty heq.symm
        exact ⟨hnames, hsections, fun _ => hown, fun _ => hown⟩
      · rw [hput hwalked] at heq
        split at heq
        · obtain ⟨hown, hsections⟩ := hempty heq.symm
          exact ⟨hnames, hsections, fun _ => hown, fun _ => hown⟩
        · rename_i hblank
          refine ⟨hnames, (length_ownText_le data comps).2 (congrArg List.length heq),
            fun h => absurd h hwalked, fun h => absurd h hblank⟩
    · intro h
      rw [expand_eq_ownText h.sections]
      by_cases hwalked : ∃ comp ∈ comps, walkedContexts data comp ≠ []
      · rw [hdropped hwalked, h.walked hwalked]
      · rw [hput hwalked]
        split
        · rename_i hblank
          exact (h.blank hblank).symm
        · rfl
  · rw [hrender]
    exact iff_of_false nofun fun h => hnames h.names

/-- Text, a variable and a section that is missing. -/
theorem render_eq_expand_missing :
    render noLambdas 0 [.string ['k'] ['x']]
        [.text ['a'], .sectionBegin ['m'] ['b'] [.text ['b']], .variableTag ['k']] =
      .ok ['a', 'x'] := by
  refine (render_eq_expand_iff noLambdas 0 [.string ['k'] ['x']]
    [.text ['a'], .sectionBegin ['m'] ['b'] [.text ['b']], .variableTag ['k']] ?_ rfl).mpr ?_
  · intro v hv
    rw [List.mem_singleton.mp hv]
    rfl
  · refine ⟨⟨trivial, ⟨by simp [HasName], fun ctx hctx => nomatch hctx⟩,
      by simp [ComponentNames, HasName], trivial⟩, ?_, ?_, ?_⟩
    · rw [List.forall_mem_cons, List.forall_mem_cons, List.forall_mem_singleton]
      exact ⟨nofun, fun _ => rfl, nofun⟩
    · rintro ⟨comp, hcomp, hwalked⟩
      refine absurd ?_ hwalked
      revert comp
      rw [List.forall_mem_cons, List.forall_mem_cons, List.forall_mem_singleton]
      exact ⟨fun _ => rfl, fun _ => rfl, fun _ => rfl⟩
    · exact fun hblank => absurd hblank (by decide)

/-- The section of a name that is true renders nothing. -/
theorem not_render_eq_expand_true :
    ¬ ∀ (L : Lambdas) (n : ℕ) (data : Context) (comps : List Component), data.Plain →
      Component.arePlain comps = true →
      render L n data comps = .ok (expand data comps) := by
  intro h
  have hrender := h noLambdas 0 [.bool ['k'] true]
    [.sectionBegin ['k'] ['x'] [.text ['x']]] (fun v hv => by
      rw [List.mem_singleton.mp hv]
      rfl) rfl
  have hdropped : render noLambdas 0 [.bool ['k'] true]
      [.sectionBegin ['k'] ['x'] [.text ['x']]] = .ok [] := rfl
  rw [hdropped] at hrender
  cases hrender

end Webpp.Views
