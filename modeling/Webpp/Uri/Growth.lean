import Webpp.Uri.ParseUri
import Webpp.Uri.Safe

/-!
# Warnings are kept

Behind the host, the parsers move on in the text and keep the warnings that are set; only an
error drops them. Nothing is asked of the rounds here: what a parser that faults would have
left does not matter.
-/

namespace Webpp.Uri

open ComponentEncoder Ctx Loop Webpp.Text

variable {σ : Type}

/-- What is returned has the property `P`, if anything is. -/
abbrev Partly {α : Type} (P : α → Prop) (x : Run α) : Prop := Sat (fun _ => True) P x

theorem Safe.partly {α : Type} {P : α → Prop} {x : Run α} (h : Safe P x) : Partly P x := by
  cases x with
  | ok a => exact h
  | error fault => trivial

/-- The parsers of what is behind the path come next, or none. -/
def UriStatus.Ends (value : UriStatus) : Prop :=
  value = .valid ∨ value = .validQueries ∨ value = .validFragment

/-- The context `ctx'` is `ctx` or later, with all its warnings. -/
structure Grows (ctx ctx' : Ctx σ) : Prop where
  pos : ctx'.pos <:+ ctx.pos
  scheme : ctx'.scheme = ctx.scheme
  warnings : ctx.status.warnings ⊆ ctx'.status.warnings
  value : ctx'.status.value = ctx.status.value ∨ ctx'.status.value.Ends

/-- There is an error or a warning. -/
def Ctx.Spoiled (ctx : Ctx σ) : Prop := ctx.status.hasError = true ∨ ctx.status.warnings ≠ ∅

namespace Grows

variable {ctx ctx' ctx'' : Ctx σ}

theorem refl (ctx : Ctx σ) : Grows ctx ctx := ⟨List.suffix_refl _, rfl, fun _ h => h, .inl rfl⟩

theorem trans (h : Grows ctx ctx') (h' : Grows ctx' ctx'') : Grows ctx ctx'' := by
  refine ⟨h'.pos.trans h.pos, h'.scheme.trans h.scheme,
    fun _ hw => h'.warnings (h.warnings hw), ?_⟩
  rcases h'.value with hvalue | hends
  · rw [hvalue]
    exact h.value
  · exact .inr hends

theorem setWarning (h : Grows ctx ctx') (warning : UriWarning) :
    Grows ctx (ctx'.setWarning warning) :=
  ⟨h.pos, h.scheme, fun _ hw => Finset.mem_insert_of_mem (h.warnings hw), h.value⟩

theorem setValid (h : Grows ctx ctx') {value : UriStatus} (hvalue : value.Ends) :
    Grows ctx (ctx'.setValid value) :=
  ⟨h.pos, h.scheme, h.warnings, .inr hvalue⟩

theorem setPos (h : Grows ctx ctx') {pos : List Char} (hpos : pos <:+ ctx'.pos) :
    Grows ctx { ctx' with pos := pos } :=
  ⟨hpos.trans h.pos, h.scheme, h.warnings, h.value⟩

theorem clean (h : Grows ctx ctx') (hclean : ctx'.status.warnings = ∅) :
    ctx.status.warnings = ∅ := by
  have hsubset := h.warnings
  rw [hclean] at hsubset
  exact Finset.subset_empty.mp hsubset

end Grows

theorem warnings_setWarning_ne (ctx : Ctx σ) (warning : UriWarning) :
    (ctx.setWarning warning).status.warnings ≠ ∅ :=
  Finset.insert_ne_empty _ _

/-! ## The encoder -/

/-- The encoder `e'` is further in the text, or at the same place, with all warnings. -/
structure Further (e e' : ComponentEncoder σ) : Prop where
  ctx : Grows e.ctx e'.ctx
  beg : e'.beg = e.beg ∨ e'.beg <:+ e.ctx.pos

namespace Further

variable {e e' e'' : ComponentEncoder σ}

theorem refl (e : ComponentEncoder σ) : Further e e := ⟨.refl e.ctx, .inl rfl⟩

theorem trans (h : Further e e') (h' : Further e' e'') : Further e e'' := by
  refine ⟨h.ctx.trans h'.ctx, ?_⟩
  rcases h'.beg with hbeg | hbeg
  · rw [hbeg]
    exact h.beg
  · exact .inr (hbeg.trans h.ctx.pos)

theorem setOut (h : Further e e') (out : σ) : Further e (e'.setOut out) :=
  ⟨⟨h.ctx.pos, h.ctx.scheme, h.ctx.warnings, h.ctx.value⟩, h.beg⟩

theorem setPos (h : Further e e') {pos : List Char} (hpos : pos <:+ e'.ctx.pos) :
    Further e (e'.setPos pos) :=
  ⟨h.ctx.setPos hpos, h.beg⟩

theorem setWarning (h : Further e e') (warning : UriWarning) :
    Further e (e'.setWarning warning) :=
  ⟨h.ctx.setWarning warning, h.beg⟩

theorem setValid (h : Further e e') {value : UriStatus} (hvalue : value.Ends) :
    Further e (e'.setValid value) :=
  ⟨h.ctx.setValid hvalue, h.beg⟩

theorem resetBegin (h : Further e e') : Further e e'.resetBegin := ⟨h.ctx, .inr h.ctx.pos⟩

theorem setBuffer (h : Further e e') (buffer : List Char × List Char) :
    Further e { e' with buffer := buffer } :=
  ⟨h.ctx, h.beg⟩

end Further

section Stay

variable (O : Output σ) (comp : Components) (e : ComponentEncoder σ)

theorem appendTo_further (chars : List Char) : Further e (appendTo O comp chars e) :=
  (Further.refl e).setOut _

theorem store_further (chars : List Char) : Further e (store O comp chars e) := by
  rw [store]
  split
  · exact appendTo_further O comp e chars
  · exact .refl e

theorem setValueOf_further (start stop : List Char) :
    Further e (setValueOf O comp start stop e) := by
  rw [setValueOf]
  split
  · exact (Further.refl e).setOut _
  · exact .refl e

theorem setValue_further : Further e (setValue O comp e) := setValueOf_further O comp e _ _

theorem startSegment_further : Further e (startSegment O comp e) := by
  rw [startSegment]
  split
  · exact (Further.refl e).setOut _
  · exact .refl e

theorem endSegmentOf_further (start stop : List Char) :
    Further e (endSegmentOf O comp start stop e) := by
  rw [endSegmentOf]
  split
  · exact ((Further.refl e).setOut _).resetBegin
  · exact .refl e

theorem endSegment_further : Further e (endSegment O comp e) :=
  endSegmentOf_further O comp e _ _

theorem resetSegmentStart_further : Further e (resetSegmentStart O comp e) := by
  rw [resetSegmentStart]
  split
  · exact (Further.refl e).resetBegin
  · exact .refl e

theorem setQueryName_further : Further e (setQueryName O e) := by
  rw [setQueryName]
  split
  · exact .refl e
  · exact (Further.refl e).setBuffer _

theorem setQueryValue_further : Further e (setQueryValue O e) := by
  rw [setQueryValue]
  split
  · exact .refl e
  · exact ⟨.refl e.ctx, .inr (List.tail_suffix _)⟩

theorem nextQuery_further : Further e (nextQuery O comp e) := by
  rw [nextQuery]
  split
  · split
    · exact (((Further.refl e).setOut _).setBuffer _).resetBegin
    · exact ((Further.refl e).setBuffer _).resetBegin
  · exact (Further.refl e).resetBegin

end Stay

section Move

variable (O : Output σ) (comp : Components) (e : ComponentEncoder σ) (count : ℕ)

theorem advance_suffix (pos : List Char) : Partly (· <:+ pos) (advance pos count) := by
  rw [advance]
  split
  · exact List.drop_suffix ..
  · trivial

theorem ignoreCharacter_further : Partly (Further e) (e.ignoreCharacter count) :=
  (advance_suffix count e.ctx.pos).bind fun _ hpos => (Further.refl e).setPos hpos

theorem skipSeparator_further : Partly (Further e) (skipSeparator O comp e count) := by
  refine (advance_suffix count e.ctx.pos).bind fun pos hpos => ?_
  have happend : Further e (if O.isModifiable && !isSeg O comp then
      appendTo O comp (e.ctx.pos.take count) e else e) := by
    split
    · exact appendTo_further O comp e _
    · exact .refl e
  refine happend.setPos ?_
  split
  · exact hpos
  · exact hpos

theorem nextSegment_further : Partly (Further e) (nextSegment O comp e count) := by
  rw [nextSegment]
  split
  · split
    · refine (skipSeparator_further O comp e count).bind fun e' h => ?_
      exact h.trans ((resetSegmentStart_further O comp e').trans (startSegment_further O comp _))
    · refine (skipSeparator_further O comp (endSegment O comp e) count).bind fun e' h => ?_
      exact (endSegment_further O comp e).trans (h.trans (resetSegmentStart_further O comp e'))
  · refine (skipSeparator_further O comp e count).bind fun e' h => ?_
    exact h.trans ((endSegment_further O comp e').trans (resetSegmentStart_further O comp _))

theorem nextSegmentOf_further (separator : Char) :
    Partly (Further e) (nextSegmentOf O comp separator e count) := by
  rw [nextSegmentOf]
  split
  · refine (ignoreCharacter_further (appendTo O comp [separator] e) count).bind fun e' h => ?_
    exact ((appendTo_further O comp e _).trans h).trans
      ((endSegment_further O comp e').trans (resetSegmentStart_further O comp _))
  · exact nextSegment_further O comp e count

theorem deref_any (pos : List Char) : Partly (fun _ => True) (deref pos) := by
  cases pos with
  | nil => trivial
  | cons c pos => trivial

theorem appendQueryValue_further : Partly (Further e) (appendQueryValue O comp e) := by
  rw [appendQueryValue]
  split
  · refine (deref_any e.ctx.pos).bind fun c _ => ?_
    refine (advance_suffix 1 e.ctx.pos).bind fun pos hpos => ?_
    split
    · exact ((Further.refl e).setBuffer _).setPos hpos
    · exact ((Further.refl e).setBuffer _).setPos hpos
  · exact Further.refl e

theorem encodeOrValidate_further (policyChars invalidChars : AsciiBitmap) :
    Further e (encodeOrValidate O comp policyChars invalidChars e).2 := by
  have hsuffix := findFirstIn_suffix invalidChars e.ctx.pos
  rw [encodeOrValidate]
  split
  · rw [← encodeUriComponent_snd policyChars] at hsuffix
    exact (appendTo_further O comp e _).setPos hsuffix
  · exact (Further.refl e).setPos hsuffix

theorem encodeOrValidateMap_further (policyChars invalidChars : AsciiBitmap) (inValue : Bool) :
    Further e (encodeOrValidateMap O comp policyChars invalidChars inValue e).2 := by
  rw [encodeOrValidateMap]
  split
  · have hsuffix := findFirstIn_suffix invalidChars e.ctx.pos
    rw [← encodeUriComponent_snd policyChars] at hsuffix
    exact ((Further.refl e).setBuffer _).setPos hsuffix
  · exact encodeOrValidate_further O comp e policyChars invalidChars

theorem percentEscape_suffix (check : Bool) (pos : List Char) :
    Partly (fun r => r.2.1 <:+ pos) (percentEscape check pos) := by
  cases pos with
  | nil => trivial
  | cons c pos =>
      cases check with
      | true => exact (percentDigits_suffix pos 0).trans (List.suffix_cons ..)
      | false =>
          cases pos with
          | nil => exact List.nil_suffix
          | cons d pos =>
              have hpos : pos <:+ c :: d :: pos :=
                (List.suffix_cons ..).trans (List.suffix_cons ..)
              cases hd : isHexDigit d with
              | true =>
                  simp only [percentEscape, hd, Bool.false_eq_true, if_false, if_true]
                  cases pos with
                  | nil => trivial
                  | cons d' pos => exact hpos
              | false =>
                  simp only [percentEscape, hd, Bool.false_eq_true, if_false]
                  exact hpos

theorem validatePercentEncode_further (check : Bool) :
    Partly (fun r => Further e r.2) (validatePercentEncode O comp check e) := by
  refine (percentEscape_suffix check e.ctx.pos).bind fun r hr => ?_
  have hstore := store_further O comp e r.1
  refine hstore.setPos ?_
  rw [store]
  split
  · exact hr
  · exact hr

end Move

/-! ## Paths -/

section Paths

variable (o : Options) (O : Output σ) (e : ComponentEncoder σ)

theorem edit_any (comp : Components) (f : List Char → Run (List Char)) (out : σ) :
    Partly (fun _ => True) (O.edit comp f out) := by
  cases O.edit comp f out with
  | ok out => trivial
  | error fault => trivial

theorem popBackSegment_further : Partly (Further e) (popBackSegment O e) := by
  rw [popBackSegment]
  split
  · split
    · exact (Further.refl e).setOut _
    · exact ((Further.refl e).setOut _).trans (resetSegmentStart_further O .path _)
  · split
    · exact (edit_any O .path _ _).bind fun out _ => (Further.refl e).setOut out
    · exact Further.refl e

theorem clearSegment_further : Partly (Further e) (clearSegment o O e) := by
  have hreset (e' : ComponentEncoder σ) (h : Further e e') :
      Further e (resetSegmentStart O .path e') :=
    h.trans (resetSegmentStart_further O .path e')
  have hset (out : σ) : Further e (e.setOut out) := (Further.refl e).setOut out
  rw [clearSegment]
  split
  · exact (edit_any O .path _ _).bind fun out _ => hreset _ (hset out)
  · split
    · split
      · exact (popBackSegment_further O e).bind hreset
      · exact (edit_any O .path _ _).bind fun out _ => hreset _ (hset out)
    · exact hreset e (Further.refl e)

theorem handleDotsInPaths_further :
    Partly (fun r => Further e r.2) (handleDotsInPaths o O e) := by
  rw [handleDotsInPaths]
  split
  · split
    · exact (clearSegment_further o O e).bind fun e' h => h
    · refine (popBackSegment_further O e).bind fun e' h => ?_
      exact (clearSegment_further o O e').bind fun e'' h' => h.trans h'
    · exact Further.refl e
  · exact Further.refl e

/-- What a round of the path, or of the fragment, leads to. -/
abbrev FlowFurther : Flow (ComponentEncoder σ) (ComponentEncoder σ) → Prop :=
  FlowSat (Further e) (Further e)

theorem FlowFurther.of_further {e e' : ComponentEncoder σ}
    {flow : Flow (ComponentEncoder σ) (ComponentEncoder σ)} (h : Further e e')
    (h' : FlowFurther e' flow) : FlowFurther e flow := by
  cases flow with
  | next e'' => exact h.trans h'
  | done e'' => exact h.trans h'

theorem pathSlash_further : Partly (FlowFurther e) (pathSlash o O e) := by
  refine (handleDotsInPaths_further o O e).bind fun r hr => ?_
  split
  · refine (ignoreCharacter_further r.2 1).bind fun e' h => ?_
    exact (hr.trans h).trans (resetSegmentStart_further O .path e')
  · exact (nextSegmentOf_further O .path r.2 1 '/').bind fun e' h => hr.trans h

theorem pathSwitch_further (c : Char) : Partly (FlowFurther e) (pathSwitch o O e c) := by
  have hwarned : Further e (e.setWarning .invalidCharacter) := (Further.refl e).setWarning _
  have htab : Partly (FlowFurther e) (if o.ignoreTabsOrNewlines then do
      let e ← (e.setWarning .invalidCharacter).ignoreCharacter
      pure (.next e)
    else pure (.done (e.setWarning .invalidCharacter)) :
      Run (Flow (ComponentEncoder σ) (ComponentEncoder σ))) := by
    split
    · exact (ignoreCharacter_further (e.setWarning .invalidCharacter) 1).bind fun e' h =>
        hwarned.trans h
    · exact hwarned
  rw [pathSwitch.eq_def]
  split
  · exact (pathSlash_further o O (e.setWarning .reverseSolidusUsed)).mono fun flow h =>
      h.of_further ((Further.refl e).setWarning _)
  · exact pathSlash_further o O e
  · exact (Further.refl e).setValid (.inr (.inl rfl))
  · exact (Further.refl e).setValid (.inr (.inr rfl))
  · refine (validatePercentEncode_further O .path e o.ignoreTabsOrNewlines).bind fun r hr => ?_
    show Further e (if r.1 = true then r.2 else r.2.setWarning .invalidCharacter)
    split
    · exact hr
    · exact hr.setWarning _
  · exact htab
  · exact htab
  · exact htab
  · show Further e (if o.eofIsValid = true then e else e.setWarning .invalidCharacter)
    split
    · exact Further.refl e
    · exact hwarned
  · exact hwarned

theorem pathStep_further : Partly (FlowFurther e) (pathStep o O e) := by
  have hstop := encodeOrValidate_further O .path e pathEncodeSet (pathInteresting O)
  rw [pathStep]
  generalize encodeOrValidate O .path pathEncodeSet (pathInteresting O) e = r at hstop
  show Partly (FlowFurther e) (if r.1 = true then _ else _)
  split
  · exact hstop
  · exact (deref_any r.2.ctx.pos).bind fun c _ =>
      (pathSwitch_further o O r.2 c).mono fun flow h => h.of_further hstop

end Paths

theorem loop_further
    {step : ComponentEncoder σ → Run (Flow (ComponentEncoder σ) (ComponentEncoder σ))}
    (hstep : ∀ e, Partly (FlowFurther e) (step e)) {n : ℕ} {e e' : ComponentEncoder σ}
    (h : loop step .diverges n e = .ok e') : Further e e' :=
  loop_partly (Further e) (Further e)
    (fun e₁ h₁ => (hstep e₁).mono fun _ hflow => hflow.of_further h₁) (Further.refl e) h

/-! ## Queries -/

section Queries

variable (o : Options) (O : Output σ) (s : QueriesState σ)

/-- How the loop over the queries is left. -/
def QueriesExit.Further (e : ComponentEncoder σ) : QueriesExit σ → Prop
  | .broke s => Uri.Further e s.encoder
  | .returned ctx => ctx.status.hasError = true

/-- What a round of the queries leads to. -/
abbrev QueriesFurther (e : ComponentEncoder σ) : Flow (QueriesState σ) (QueriesExit σ) → Prop :=
  FlowSat (fun s => Further e s.encoder) (QueriesExit.Further e)

theorem queriesDefault_further : Partly (QueriesFurther s.encoder) (queriesDefault o O s) := by
  rw [queriesDefault]
  split
  · exact (skipSeparator_further O .queries (s.encoder.setWarning .invalidCharacter) 1).bind
      fun e he => ((Further.refl s.encoder).setWarning _).trans he
  · exact rfl

theorem queriesTab_further : Partly (QueriesFurther s.encoder) (queriesTab o O s) := by
  rw [queriesTab]
  split
  · exact (ignoreCharacter_further (s.encoder.setWarning .invalidCharacter) 1).bind
      fun e he => ((Further.refl s.encoder).setWarning _).trans he
  · exact queriesDefault_further o O s

theorem queriesEq_further : Partly (QueriesFurther s.encoder) (queriesSwitch o O s '=') := by
  rw [queriesSwitch]
  split
  · exact (appendQueryValue_further O .queries s.encoder).bind fun e he => he
  · have hname : Further s.encoder
        (if O.isSegregated then setQueryName O s.encoder else s.encoder) := by
      split
      · exact setQueryName_further O s.encoder
      · exact .refl s.encoder
    exact (skipSeparator_further O .queries _ 1).bind fun e he => (hname.trans he).resetBegin

theorem queriesAmp_further : Partly (QueriesFurther s.encoder) (queriesSwitch o O s '&') := by
  have hvalue : Further s.encoder (if O.isSegregated then ⟨setQueryValue O s.encoder, false⟩
      else s : QueriesState σ).encoder := by
    split
    · exact setQueryValue_further O s.encoder
    · exact .refl s.encoder
  rw [queriesSwitch]
  exact (skipSeparator_further O .queries _ 1).bind fun e he =>
    (hvalue.trans he).trans (nextQuery_further O .queries e)

theorem queriesSwitch_further (c : Char) :
    Partly (QueriesFurther s.encoder) (queriesSwitch o O s c) := by
  by_cases heq : c = '='
  · rw [heq]
    exact queriesEq_further o O s
  by_cases hamp : c = '&'
  · rw [hamp]
    exact queriesAmp_further o O s
  rw [queriesSwitch.eq_def]
  split
  · exact ((Further.refl s.encoder).setOut _).setValid (.inr (.inr rfl))
  · refine (validatePercentEncode_further O .queries s.encoder o.ignoreTabsOrNewlines).bind
      fun r hr => ?_
    split
    · exact hr
    · split
      · exact hr.setWarning _
      · exact rfl
  · exact absurd rfl heq
  · exact absurd rfl hamp
  · split
    · exact Further.refl s.encoder
    · exact queriesTab_further o O s
  · exact queriesTab_further o O s
  · exact queriesTab_further o O s
  · exact queriesTab_further o O s
  · exact queriesDefault_further o O s

theorem QueriesFurther.of_further {e e' : ComponentEncoder σ}
    {flow : Flow (QueriesState σ) (QueriesExit σ)} (h : Further e e')
    (h' : QueriesFurther e' flow) : QueriesFurther e flow := by
  cases flow with
  | next s => exact h.trans h'
  | done exit =>
      cases exit with
      | broke s => exact h.trans h'
      | returned ctx => exact h'

theorem queriesStep_further (encodeSet : AsciiBitmap) :
    Partly (QueriesFurther s.encoder) (queriesStep o O encodeSet s) := by
  have hstop := encodeOrValidateMap_further O .queries s.encoder encodeSet (queriesInteresting O)
    s.inValue
  rw [queriesStep]
  generalize encodeOrValidateMap O .queries encodeSet (queriesInteresting O) s.inValue s.encoder = r
    at hstop
  show Partly (QueriesFurther s.encoder) (if r.1 = true then _ else _)
  split
  · exact hstop
  · exact (deref_any r.2.ctx.pos).bind fun c _ =>
      (queriesSwitch_further o O ⟨r.2, s.inValue⟩ c).mono fun flow h => h.of_further hstop

theorem queriesEnd_grows : Partly (Grows s.encoder.ctx) (queriesEnd O s) := by
  have hname : Further s.encoder (if O.isSegregated then
      if s.inValue then setQueryValue O s.encoder else setQueryName O s.encoder
      else s.encoder) := by
    split
    · split
      · exact setQueryValue_further O s.encoder
      · exact setQueryName_further O s.encoder
    · exact .refl s.encoder
  rw [queriesEnd]
  generalize (if O.isSegregated then
    if s.inValue then setQueryValue O s.encoder else setQueryName O s.encoder
    else s.encoder) = e at hname
  have hset := hname.trans (setValue_further O .queries e)
  generalize ComponentEncoder.setValue O .queries e = e' at hset
  simp only
  split
  · exact (((hset.setValid (.inl rfl)).trans (nextQuery_further O .queries _)).ctx)
  · exact (ignoreCharacter_further e' 1).bind fun e'' he =>
      ((hset.trans he).trans (nextQuery_further O .queries e'')).ctx

/-- What follows the loop of `parse_queries`, however it is left. -/
def queriesFinish (O : Output σ) : QueriesExit σ → Run (Ctx σ)
  | .broke s => queriesEnd O s
  | .returned ctx => pure ctx

theorem parseQueries_eq {o : Options} (hparse : o.parseQueries = true) {ctx : Ctx σ}
    (hne : ctx.pos ≠ []) :
    parseQueries o O ctx =
      loop (queriesStep o O (queryPercentEncodeSet ctx.scheme)) .diverges (ctx.pos.length + 1)
        ⟨ofCtx ctx, false⟩ >>= queriesFinish O := by
  rw [parseQueries, if_pos hparse, if_neg hne]
  refine congrArg (loop _ _ _ _ >>= ·) (funext fun exit => ?_)
  cases exit with
  | broke s => rfl
  | returned ctx => rfl

theorem parseQueries_grows {o : Options} (hparse : o.parseQueries = true) (ctx : Ctx σ) :
    Partly (fun a => a.status.hasError = true ∨ Grows ctx a) (parseQueries o O ctx) := by
  by_cases hne : ctx.pos = []
  · rw [parseQueries, if_pos hparse, if_pos hne]
    exact Or.inr ((Grows.refl ctx).setValid (.inl rfl))
  · rw [parseQueries_eq O hparse hne]
    cases hloop : loop (queriesStep o O (queryPercentEncodeSet ctx.scheme)) .diverges
        (ctx.pos.length + 1) ⟨ofCtx ctx, false⟩ with
    | error fault => trivial
    | ok exit =>
        have hleft : QueriesExit.Further (ofCtx ctx) exit := by
          refine loop_partly (fun s => Further (ofCtx ctx) s.encoder)
            (QueriesExit.Further (ofCtx ctx)) (fun s hs => ?_) (Further.refl (ofCtx ctx)) hloop
          exact (queriesStep_further o O s (queryPercentEncodeSet ctx.scheme)).mono
            fun flow hflow => hflow.of_further hs
        cases exit with
        | broke s => exact (queriesEnd_grows O s).mono fun a ha => .inr (hleft.ctx.trans ha)
        | returned ctx' => exact Or.inl hleft

end Queries

/-! ## Fragments -/

section Fragments

variable (o : Options) (O : Output σ) (e : ComponentEncoder σ)

theorem fragmentStep_further : Partly (FlowFurther e) (fragmentStep o O e) := by
  have hstop := encodeOrValidate_further O .fragment e fragmentEncodeSet (asciiBitmap ['%'])
  rw [fragmentStep]
  generalize encodeOrValidate O .fragment fragmentEncodeSet (asciiBitmap ['%']) e = r at hstop
  show Partly (FlowFurther e) (if r.1 = true then _ else _)
  split
  · exact hstop
  · refine (deref_any r.2.ctx.pos).bind fun c _ => ?_
    split
    · refine (validatePercentEncode_further O .fragment r.2 o.ignoreTabsOrNewlines).bind
        fun r' hr => ?_
      show Further e (if r'.1 = true then r'.2 else r'.2.setWarning .invalidCharacter)
      split
      · exact hstop.trans hr
      · exact (hstop.trans hr).setWarning _
    · exact hstop.setWarning _

theorem parseFragment_grows {o : Options} (hparse : o.parseFragment = true) (ctx : Ctx σ) :
    Partly (Grows ctx) (parseFragment o O ctx) := by
  rw [parseFragment, if_pos hparse]
  split
  · exact (Grows.refl ctx).setValid (.inl rfl)
  · cases hloop : loop (fragmentStep o O) .diverges (ctx.pos.length + 1) (ofCtx ctx) with
    | error fault => trivial
    | ok e =>
        have hfurther := loop_further (fragmentStep_further o O) hloop
        exact ((hfurther.trans (setValue_further O .fragment e)).setValid (.inl rfl)).ctx

end Fragments

end Webpp.Uri
