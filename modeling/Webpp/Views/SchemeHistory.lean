import Webpp.Views.TemplateReading

/-!
# The templates that a view was given before

`scheme` adds to the components of the view and never clears its error, so that what a view
renders depends on all texts it was given. It depends on the last one alone while the earlier ones
left nothing but comments, and no rendering has set the error.
-/

namespace Webpp.Views

open Loop Webpp.Http

/-! ## Parsing behind components -/

/-- The state of a parser that had the components before. -/
def ScanState.under (comps : List Component) (s : ScanState) : ScanState :=
  { s with root := comps ++ s.root }

section Under

variable {input : List Char} {comps : List Component}

/-- The rounds agree up to the components that were there before. -/
def UnderFlow (comps : List Component) : ScanFlow → ScanFlow → Prop :=
  FlowRelated (fun s s' => s = s'.under comps) fun r r' => r = (r'.1.under comps, r'.2)

theorem ScanState.under_push (s : ScanState) (comp : Component) :
    (s.under comps).push comp = (s.push comp).under comps := by
  rw [push, push, under]
  cases hsections : s.sections with
  | nil =>
      simp only [under, List.append_assoc]
  | cons sec secs => rfl

theorem ScanState.under_processCurrentText (s : ScanState) :
    (s.under comps).processCurrentText = s.processCurrentText.under comps := by
  rw [processCurrentText, processCurrentText]
  by_cases hnil : s.currentText = []
  · rw [if_pos hnil, if_pos (show (s.under comps).currentText = [] from hnil)]
  · rw [if_neg hnil, if_neg (show (s.under comps).currentText ≠ [] from hnil), under_push]
    rfl

theorem scanPush_under (tagStart : ℕ) (s : ScanState) (comp : Component) :
    Simulates (UnderFlow comps) (scanPush input tagStart (s.under comps) comp)
      (scanPush input tagStart s comp) := by
  have hpush : Simulates (UnderFlow comps) (.ok (.next ((s.under comps).push comp)))
      (.ok (.next (s.push comp)) : Except ScanFault ScanFlow) :=
    .ok (.next (s.under_push comp))
  cases comp with
  | sectionBegin name sectionText children => exact .ok (.next rfl)
  | sectionBeginInverted name children => exact .ok (.next rfl)
  | sectionEnd name =>
      rw [scanPush, scanPush, s.under_push]
      have hsections : ((s.push (.sectionEnd name)).under comps).sections =
          (s.push (.sectionEnd name)).sections := rfl
      rw [hsections]
      cases (s.push (.sectionEnd name)).sections with
      | nil => exact .ok (.done rfl)
      | cons sec secs =>
          refine (Simulates.refl _).bind fun sectionText sectionText' heq => ?_
          rw [heq]
          exact .ok (.next (ScanState.under_push { s with sections := secs } _))
  | text text => exact hpush
  | variableTag name => exact hpush
  | unescapedVariable name => exact hpush
  | comment text => exact hpush
  | partialTag name => exact hpush
  | setDelimiter delimSet => exact hpush

theorem scanContents_under (s : ScanState) (isUnescapedVar : Bool) :
    Simulates (UnderFlow comps) (scanContents input (s.under comps) isUnescapedVar)
      (scanContents input s isUnescapedVar) := by
  rw [scanContents, scanContents]
  dsimp only [ScanState.under]
  split
  · exact .ok (.done rfl)
  · refine (Simulates.refl _).bind fun tagContents tagContents' heq => ?_
    rw [heq]
    split
    · split
      · exact .ok (.done rfl)
      · exact .ok (.next (ScanState.under_push ⟨_, _, _, _, _, _⟩ _))
    · exact scanPush_under _ ⟨_, _, _, _, _, _⟩ _

theorem scanStep_under (s : ScanState) :
    Simulates (UnderFlow comps) (scanStep input (s.under comps)) (scanStep input s) := by
  rw [scanStep, scanStep]
  have hposition : (s.under comps).inputPosition = s.inputPosition := rfl
  have hdelim : (s.under comps).delimSet = s.delimSet := rfl
  rw [hposition, hdelim, s.under_processCurrentText]
  split
  · exact .ok (.done rfl)
  · refine (Simulates.refl _).bind fun begins begins' heq => ?_
    rw [heq]
    split
    · refine (Simulates.refl _).bind fun braces braces' heq => ?_
      rw [heq]
      exact scanContents_under _ _
    · refine (Simulates.refl _).bind fun found found' heq => ?_
      rw [heq]
      split
      · refine .ok (.next ?_)
        rw [ScanState.under_push]
        rfl
      · refine (Simulates.refl _).bind fun c c' heq => ?_
        rw [heq]
        exact .ok (.next rfl)

theorem closeAll_under (root : List Component) (secs : List OpenSection)
    (comps' : List Component) :
    closeAll (comps ++ root) secs comps' = comps ++ closeAll root secs comps' := by
  induction secs generalizing comps' with
  | nil => rw [closeAll, closeAll, List.append_assoc]
  | cons sec secs ih => rw [closeAll, closeAll, ih]

theorem tree_under (s : ScanState) : (s.under comps).tree input = comps ++ s.tree input :=
  closeAll_under s.root _ []

/-- `{{! … }}` -/
def Component.isComment : Component → Bool
  | .comment _ => true
  | _ => false

theorem walkSections_comments (hcomments : ∀ comp ∈ comps, comp.isComment = true)
    (comps' : List Component) :
    walkSections (comps ++ comps') =
      (comps ++ (walkSections comps').1, (walkSections comps').2) := by
  induction comps with
  | nil => rfl
  | cons comp comps ih =>
      rw [List.forall_mem_cons] at hcomments
      have hwalk : walkSection comp = (comp, none) := by
        cases comp with
        | comment text => rfl
        | _ => cases hcomments.1
      rw [List.cons_append, walkSections, hwalk]
      dsimp only
      rw [ih hcomments.2, List.cons_append]

theorem loop_under (input : List Char) (comps : List Component) (s : ScanState) (n : ℕ) :
    Simulates (fun r r' => r = (r'.1.under comps, r'.2))
      (loop (scanStep input) .exhausted n (s.under comps))
      (loop (scanStep input) .exhausted n s) := by
  refine loop_simulates (fun s s' => s = s'.under comps) _ (fun s s' hs => ?_) rfl n
  rw [hs]
  exact scanStep_under s'

theorem scheme_behind (hcomments : ∀ comp ∈ comps, comp.isComment = true) {w : MustacheView}
    (h : ({} : MustacheView).scheme input = .ok w) :
    (⟨comps, none⟩ : MustacheView).scheme input = .ok ⟨comps ++ w.components, w.errorMsg⟩ := by
  have hloops := loop_under input comps
    ⟨0, {}, ({} : DelimiterSet).isDefault, [], [], []⟩ (input.length + 1)
  have hstart : ScanState.under comps ⟨0, {}, ({} : DelimiterSet).isDefault, [], [], []⟩ =
      ⟨0, {}, ({} : DelimiterSet).isDefault, [], [], comps⟩ := by
    rw [ScanState.under, List.append_nil]
  rw [hstart] at hloops
  rw [MustacheView.scheme, MustacheView.parse] at h ⊢
  dsimp only at h ⊢
  generalize loop (scanStep input) .exhausted (input.length + 1)
    (⟨0, {}, ({} : DelimiterSet).isDefault, [], [], []⟩ : ScanState) = right at h hloops
  cases right with
  | error e => cases h
  | ok r =>
      obtain ⟨left, hleft, rfl⟩ := hloops.exists_ok
      rw [hleft]
      obtain ⟨s, e⟩ := r
      cases h
      cases e with
      | some e =>
          change Except.ok (MustacheView.mk ((s.under comps).tree input) (some (.scheme e))) = _
          rw [tree_under]
          rfl
      | none =>
          change Except.ok (MustacheView.mk (walkSections ((s.under comps).tree input)).1
            (((walkSections ((s.under comps).tree input)).2.map ViewError.scheme).or none)) = _
          rw [tree_under, walkSections_comments hcomments]
          rfl

end Under

/-! ## Renderings -/

namespace MustacheView

/-- `render`, with the view behind it. The overloads for data do nothing if there is an error, and
the ones for a context go on with it. -/
def render (v : MustacheView) (L : Lambdas) (n : ℕ) (checked : Bool) (data : Context) :
    Except RenderFault (List Char × MustacheView) :=
  if checked && !v.isValid then .ok ([], v)
  else do
    let s ← walkChildren L (renderTemplate L n) data ⟨[], {}, !v.isValid⟩ v.components
    return (output {} (s.ops ++ [.endLine none]),
      { v with errorMsg := v.errorMsg.or (if s.error then some .rendering else none) })

/-- The output of a rendering, and whether the view is valid behind it. -/
def rendered (v : MustacheView) (L : Lambdas) (n : ℕ) (checked : Bool) (data : Context) :
    Except RenderFault (List Char × Bool) :=
  (v.render L n checked data).map fun r => (r.1, r.2.isValid)

/-- The last template left nothing but comments, and there is no error. -/
def Blank (v : MustacheView) : Prop :=
  v.errorMsg = none ∧ ∀ comp ∈ v.components, comp.isComment = true

end MustacheView

section Renderings

variable (L : Lambdas) (n : ℕ)

/-- The views that calls lead to, with the last template they were given. The calls of `scheme`
are made on views that `fits` holds of. -/
inductive Ran (fits : MustacheView → Prop) : Option (List Char) → MustacheView → Prop where
  | new : Ran fits none {}
  | scheme {last : Option (List Char)} {v v' : MustacheView} {text : List Char}
      (h : Ran fits last v) (hfits : fits v) (hcall : v.scheme text = .ok v') :
      Ran fits (some text) v'
  | render {last : Option (List Char)} {v v' : MustacheView} {checked : Bool} {data : Context}
      {text : List Char} (h : Ran fits last v)
      (hcall : v.render L n checked data = .ok (text, v')) : Ran fits last v'

/-- A new view that is given the template, if there is one. -/
def freshView : Option (List Char) → Except ScanFault MustacheView
  | none => .ok {}
  | some text => ({} : MustacheView).scheme text

/-- The view is as valid as a new one with the last template, and renders the same. -/
def Forgets (last : Option (List Char)) (v : MustacheView) : Prop :=
  ∃ w, freshView last = .ok w ∧ v.isValid = w.isValid ∧
    ∀ checked data, v.rendered L n checked data = w.rendered L n checked data

variable {L n} {last : Option (List Char)} {v : MustacheView} {comps comps' : List Component}

theorem walkChildren_comments {renderPartial : PartialRenderer} {ctx : Context} {s : RenderState}
    (hcomments : ∀ comp ∈ comps, comp.isComment = true) :
    walkChildren L renderPartial ctx s (comps ++ comps') =
      walkChildren L renderPartial ctx s comps' := by
  induction comps with
  | nil => rfl
  | cons comp comps ih =>
      rw [List.forall_mem_cons] at hcomments
      cases comp with
      | comment text =>
          rw [List.cons_append, walkChildren, renderComponent]
          exact ih hcomments.2
      | _ => cases hcomments.1

theorem rendered_behind (w : MustacheView) (hcomments : ∀ comp ∈ comps, comp.isComment = true)
    (checked : Bool) (data : Context) :
    (⟨comps ++ w.components, w.errorMsg⟩ : MustacheView).rendered L n checked data =
      w.rendered L n checked data := by
  have hvalid : (⟨comps ++ w.components, w.errorMsg⟩ : MustacheView).isValid = w.isValid := rfl
  rw [MustacheView.rendered, MustacheView.rendered, MustacheView.render, MustacheView.render,
    hvalid, walkChildren_comments hcomments]
  split
  · rfl
  · cases walkChildren L (renderTemplate L n) data ⟨[], {}, !w.isValid⟩ w.components <;> rfl

theorem exists_scheme (text : List Char) : ∃ w, ({} : MustacheView).scheme text = .ok w := by
  have hproper : ({} : DelimiterSet).Proper := .inl (by decide)
  obtain ⟨w, delimSet, hparse⟩ := exists_parse hproper text
  refine ⟨w, ?_⟩
  rw [MustacheView.scheme, hparse]
  rfl

/-- The view is a new one with the last template behind comments, but for an error of a
rendering. -/
theorem Ran.behind (h : Ran L n MustacheView.Blank last v) :
    ∃ w comps, freshView last = .ok w ∧ (∀ comp ∈ comps, comp.isComment = true) ∧
      v.components = comps ++ w.components ∧
        (v.errorMsg = w.errorMsg ∨ v.errorMsg = some .rendering) := by
  induction h with
  | new => exact ⟨{}, [], rfl, fun _ hmem => absurd hmem List.not_mem_nil, rfl, .inl rfl⟩
  | scheme h hblank hcall ih =>
      rename_i last v v' text
      obtain ⟨w, hw⟩ := exists_scheme text
      have hv : v = ⟨v.components, none⟩ := by rw [← hblank.1]
      rw [hv, scheme_behind hblank.2 hw] at hcall
      cases hcall
      exact ⟨w, v.components, hw, hblank.2, rfl, .inl rfl⟩
  | render h hcall ih =>
      rename_i last v v' checked data text
      obtain ⟨w, comps, hw, hcomments, hcomps, herror⟩ := ih
      rw [MustacheView.render] at hcall
      split at hcall
      · cases hcall
        exact ⟨w, comps, hw, hcomments, hcomps, herror⟩
      · cases hwalk : walkChildren L (renderTemplate L n) data ⟨[], {}, !v.isValid⟩
            v.components with
        | error e =>
            rw [hwalk] at hcall
            cases hcall
        | ok s =>
            rw [hwalk] at hcall
            cases hcall
            refine ⟨w, comps, hw, hcomments, hcomps, ?_⟩
            dsimp only
            cases herrorMsg : v.errorMsg with
            | some e =>
                rw [herrorMsg] at herror
                exact herror
            | none =>
                rw [herrorMsg] at herror
                rw [Option.none_or]
                split
                · exact .inr rfl
                · exact .inl (herror.resolve_right fun h => by cases h)

/-- Calls of `scheme` on views with nothing but comments and without an error, and renderings that
set no error, leave nothing of the earlier templates. -/
theorem forgets_of_blank (h : Ran L n MustacheView.Blank last v)
    (hrender : v.errorMsg ≠ some .rendering) : Forgets L n last v := by
  obtain ⟨w, comps, hw, hcomments, hcomps, herror⟩ := h.behind
  have hv : v = ⟨comps ++ w.components, w.errorMsg⟩ := by
    rw [← hcomps, ← herror.resolve_right hrender]
  refine ⟨w, hw, ?_, fun checked data => ?_⟩
  · rw [hv]
    rfl
  · rw [hv]
    exact rendered_behind w hcomments checked data

end Renderings

/-- A text behind a comment. -/
theorem forgets_of_blank_comment :
    Forgets noLambdas 0 (some ['x']) ⟨[.comment ['a'], .text ['x']], none⟩ := by
  have hcomment : Ran noLambdas 0 MustacheView.Blank
      (some ['\x7b', '\x7b', '!', 'a', '\x7d', '\x7d']) ⟨[.comment ['a']], none⟩ :=
    .scheme .new ⟨rfl, fun _ hmem => absurd hmem List.not_mem_nil⟩ rfl
  have hblank : MustacheView.Blank ⟨[.comment ['a']], none⟩ :=
    ⟨rfl, List.forall_mem_singleton.mpr rfl⟩
  exact forgets_of_blank (.scheme hcomment hblank rfl) fun h => by cases h

/-- A view that is given the templates `a` and `x` renders `ax`, and one that is given `{{` or
`{{#a}}{{/a}}` before is not valid. -/
theorem not_forgets :
    (¬ ∀ (L : Lambdas) (n : ℕ) (last : Option (List Char)) (v : MustacheView),
      Ran L n (fun _ => True) last v → Forgets L n last v) ∧
    ∀ text ∈ [['\x7b', '\x7b'],
        ['\x7b', '\x7b', '#', 'a', '\x7d', '\x7d', '\x7b', '\x7b', '/', 'a', '\x7d', '\x7d']],
      ∃ v v' w, ({} : MustacheView).scheme text = .ok v ∧ v.scheme ['x'] = .ok v' ∧
        ({} : MustacheView).scheme ['x'] = .ok w ∧ v'.isValid = false ∧ w.isValid = true := by
  constructor
  · intro h
    have hfirst : Ran noLambdas 0 (fun _ => True) (some ['a']) ⟨[.text ['a']], none⟩ :=
      .scheme .new trivial rfl
    have hboth : Ran noLambdas 0 (fun _ => True) (some ['x'])
        ⟨[.text ['a'], .text ['x']], none⟩ := .scheme hfirst trivial rfl
    obtain ⟨w, hw, -, hrendered⟩ := h _ _ _ _ hboth
    cases hw
    have hout := hrendered true []
    have hax : (⟨[.text ['a'], .text ['x']], none⟩ : MustacheView).rendered noLambdas 0 true [] =
      .ok (['a', 'x'], true) := rfl
    have hx : (⟨[.text ['x']], none⟩ : MustacheView).rendered noLambdas 0 true [] =
      .ok (['x'], true) := rfl
    rw [hax] at hout
    cases hout.trans hx
  · rw [List.forall_mem_cons, List.forall_mem_singleton]
    refine ⟨⟨⟨[], some (.scheme .unclosedTag)⟩, ⟨[.text ['x']], some (.scheme .unclosedTag)⟩, _,
      rfl, rfl, rfl, rfl, rfl⟩, ?_⟩
    exact ⟨⟨[.sectionBegin ['a'] [] []], none⟩,
      ⟨[.sectionBegin ['a'] [] [], .text ['x']], some (.scheme (.unclosedSection ['a']))⟩, _,
      rfl, rfl, rfl, rfl, rfl⟩

end Webpp.Views
