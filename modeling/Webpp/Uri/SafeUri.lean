import Webpp.Uri.Offsets
import Webpp.Uri.SafeAuthority
import Webpp.Uri.SafeQueries

/-!
# Safety of `parse_uri`

Schemes, and the machine of all parsers: each of them lowers the status or moves the
position, so that every run ends.
-/

namespace Webpp.Uri

open ComponentEncoder Ctx Loop

variable {σ : Type} {o : Options} {O : Output σ}

/-! ## Schemes -/

/-- What is left behind the colon of a scheme. The host of a file is only parsed where the
options allow it. -/
structure SchemeLeft (o : Options) (ctx ctx' : Ctx σ) : Prop where
  lowers : Lowers 7 ctx ctx'
  fileHost : ctx'.status.value = .validFileHost → o.allowFileHosts = true

theorem SchemeLeft.of_ahead {ctx ctx' ctx'' : Ctx σ} (h : Ahead ctx ctx')
    (h' : SchemeLeft o ctx' ctx'') : SchemeLeft o ctx ctx'' :=
  ⟨⟨h'.lowers.beg.trans h.beg, h'.lowers.pos.trans h.pos, h'.lowers.rank⟩, h'.fileHost⟩

theorem SchemeLeft.setValid (ctx : Ctx σ) {value : UriStatus}
    (h : value.rank < 7 ∧ value ≠ .validFileHost) : SchemeLeft o ctx (ctx.setValid value) :=
  ⟨⟨rfl, List.suffix_refl _, h.1⟩, fun hvalue => absurd hvalue h.2⟩

theorem SchemeLeft.setError (ctx : Ctx σ) {value : UriStatus}
    (h : value.rank < 7 ∧ value ≠ .validFileHost) : SchemeLeft o ctx (ctx.setError value) :=
  ⟨⟨rfl, List.suffix_refl _, h.1⟩, fun hvalue => absurd hvalue h.2⟩

/-- The scheme and the output are not looked at. -/
theorem SchemeLeft.of_eq {ctx ctx' ctx'' : Ctx σ} (h : SchemeLeft o ctx' ctx'')
    (hbeg : ctx'.beg = ctx.beg) (hpos : ctx'.pos = ctx.pos) : SchemeLeft o ctx ctx'' :=
  ⟨⟨h.lowers.beg.trans hbeg, hpos ▸ h.lowers.pos, h.lowers.rank⟩, h.fileHost⟩

theorem SchemeLeft.skipped {ctx ctx' : Ctx σ} {warning : UriWarning} {c : Char}
    {pos : List Char} (h : SchemeLeft o { ctx.setWarning warning with pos := pos } ctx') :
    SchemeLeft o { ctx with pos := c :: pos } ctx' :=
  ⟨⟨h.lowers.beg, h.lowers.pos.trans (List.suffix_cons ..), h.lowers.rank⟩, h.fileHost⟩

theorem safelyIncIfLoop_ahead (vals pos : List Char) (ctx : Ctx σ) :
    Ahead { ctx with pos := pos } (safelyIncIfLoop vals pos ctx).2 := by
  induction pos generalizing vals ctx with
  | nil =>
      rw [safelyIncIfLoop]
      exact .refl _
  | cons c pos ih =>
      have htail (vals : List Char) (ctx : Ctx σ) :
          Ahead { ctx with pos := c :: pos } (safelyIncIfLoop vals pos ctx).2 :=
        Ahead.trans ⟨pos, List.suffix_cons .., (MovedTo.refl _).setPos pos⟩ (ih vals ctx)
      rw [safelyIncIfLoop.eq_def]
      cases vals with
      | nil => exact .refl _
      | cons val rest =>
          simp only
          split
          · obtain ⟨pos', hsuffix, hmoved⟩ := htail (val :: rest) (ctx.setWarning .invalidCharacter)
            exact ⟨pos', hsuffix, hmoved.beg, hmoved.scheme, hmoved.value, hmoved.pos⟩
          · split
            · exact .refl _
            · exact htail rest ctx

theorem safelyIncIf_ahead (vals : List Char) (ctx : Ctx σ) :
    Ahead ctx (safelyIncIf o vals ctx).2 := by
  rw [safelyIncIf]
  split
  · exact safelyIncIfLoop_ahead vals ctx.pos ctx
  · split
    · exact ⟨_, List.drop_suffix .., (MovedTo.refl ctx).setPos _⟩
    · exact .refl ctx

theorem ignoreSlashes_left (pos : List Char) (ctx : Ctx σ) :
    SchemeLeft o { ctx with pos := pos } (ignoreSlashes o pos ctx) := by
  induction pos generalizing ctx with
  | nil => exact .setValid _ (by decide)
  | cons c pos ih =>
      rw [ignoreSlashes]
      split
      · exact (ih _).skipped
      · split
        · exact .setError _ (by decide)
        · split
          · exact (ih _).skipped
          · exact .setValid _ (by decide)

theorem fileHostOrPath_left (ctx : Ctx σ) :
    SchemeLeft o ctx (ctx.setValid (if o.allowFileHosts then .validFileHost else .validPath)) := by
  split
  · rename_i hallow
    exact ⟨⟨rfl, List.suffix_refl _, show UriStatus.rank .validFileHost < 7 by decide⟩,
      fun _ => hallow⟩
  · exact .setValid _ (by decide)

theorem fileSlashState_left (ctx : Ctx σ) : SchemeLeft o ctx (fileSlashState o ctx) := by
  have hpath (ctx : Ctx σ) : SchemeLeft o ctx (ctx.setValid .validPath) :=
    .setValid _ (by decide)
  rw [fileSlashState]
  split
  · exact hpath ctx
  · rename_i c rest _
    have hwarned : Ahead ctx (if c = '\\' then ctx.setWarning .reverseSolidusUsed else ctx) := by
      split
      · exact (Ahead.refl ctx).setWarning _
      · exact .refl ctx
    simp only
    split
    · exact (fileHostOrPath_left _).of_ahead hwarned
    · split
      · exact (hpath _).of_ahead (hwarned.setWarning _)
      · exact (hpath _).of_ahead hwarned

theorem fileStateLoop_left (pos : List Char) (ctx : Ctx σ) :
    SchemeLeft o { ctx with pos := pos } (fileStateLoop o pos ctx) := by
  induction pos generalizing ctx with
  | nil => exact .setValid _ (by decide)
  | cons c pos ih =>
      have hrefl : Ahead { ctx with pos := c :: pos } { ctx with pos := c :: pos } := .refl _
      rw [fileStateLoop]
      simp only
      split
      · exact (fileSlashState_left _).of_ahead (hrefl.setWarning _)
      · split
        · exact fileSlashState_left _
        · split
          · split
            · exact .setValid _ (by decide)
            · exact (fileHostOrPath_left _).of_ahead (hrefl.setWarning .invalidCharacter)
          · split
            · exact (ih _).skipped
            · exact fileHostOrPath_left _

theorem fileState_left (ctx : Ctx σ) : SchemeLeft o ctx (fileState o O ctx) :=
  (fileStateLoop_left ctx.pos { ctx with out := O.clear .host ctx.out }).of_eq rfl rfl

theorem safelyIncIf_warned (vals : List Char) (ctx : Ctx σ) :
    Ahead ctx (if (safelyIncIf o vals ctx).1 = true then (safelyIncIf o vals ctx).2
      else (safelyIncIf o vals ctx).2.setWarning .missingFollowingSolidus) := by
  have h := safelyIncIf_ahead (o := o) vals ctx
  split
  · exact h
  · exact h.setWarning _

theorem afterFileScheme_left (ctx : Ctx σ) : SchemeLeft o ctx (afterFileScheme o O ctx) :=
  ((fileState_left _).of_ahead (safelyIncIf_warned _ { ctx with scheme := .file })).of_eq rfl rfl

theorem afterSpecialScheme_left (ctx : Ctx σ) : SchemeLeft o ctx (afterSpecialScheme o ctx) :=
  ((ignoreSlashes_left _ _).of_ahead
    (safelyIncIf_warned _ { ctx with scheme := .specialScheme })).of_eq rfl rfl

theorem afterOtherScheme_left (ctx : Ctx σ) : SchemeLeft o ctx (afterOtherScheme o O ctx) := by
  have hfirst := safelyIncIf_ahead (o := o) ['/'] { ctx with scheme := .notSpecial }
  rw [afterOtherScheme]
  generalize safelyIncIf o ['/'] { ctx with scheme := .notSpecial } = r at hfirst
  have hsecond := safelyIncIf_ahead (o := o) ['/'] r.2
  simp only
  generalize safelyIncIf o ['/'] r.2 = r' at hsecond
  split
  · split
    · exact ((SchemeLeft.setValid _ (by decide)).of_ahead (hfirst.trans hsecond)).of_eq rfl rfl
    · exact ((SchemeLeft.setValid _ (by decide)).of_ahead (hfirst.trans hsecond)).of_eq rfl rfl
  · have hpath : SchemeLeft o r.2
        ({ r.2 with out := O.clear .path r.2.out }.setValid .validOpaquePath) :=
      (SchemeLeft.setValid _ (by decide)).of_eq rfl rfl
    exact (hpath.of_ahead hfirst).of_eq rfl rfl

/-! ## `parse_scheme` -/

theorem schemeLoop_spec (pos name : List Char) (ctx : Ctx σ) :
    (schemeLoop o pos name ctx).2.beg = ctx.beg ∧ (schemeLoop o pos name ctx).2.pos <:+ pos ∧
      ((schemeLoop o pos name ctx).1 = none →
        (schemeLoop o pos name ctx).2.status.value.rank = 0) ∧
      ((schemeLoop o pos name ctx).1 ≠ none →
        (schemeLoop o pos name ctx).2.pos.head? = some ':') := by
  induction pos generalizing name ctx with
  | nil => exact ⟨rfl, List.suffix_refl _, fun _ => rfl, fun h => absurd rfl h⟩
  | cons c pos ih =>
      have herror (value : UriStatus) (hvalue : value.rank = 0) :
          ({ ctx with pos := c :: pos }.setError value).beg = ctx.beg ∧
            ({ ctx with pos := c :: pos }.setError value).pos <:+ c :: pos ∧
            ((none : Option (List Char)) = none →
              ({ ctx with pos := c :: pos }.setError value).status.value.rank = 0) ∧
            ((none : Option (List Char)) ≠ none →
              ({ ctx with pos := c :: pos }.setError value).pos.head? = some ':') :=
        ⟨rfl, List.suffix_refl _, fun _ => hvalue, fun h => absurd rfl h⟩
      rw [schemeLoop]
      simp only
      split
      · rename_i hcolon
        exact ⟨rfl, List.suffix_refl _, fun h => absurd h (Option.some_ne_none _),
          fun _ => congrArg some hcolon⟩
      · split
        · refine herror _ ?_
          split <;> rfl
        · split
          · obtain ⟨hbeg, hpos, hrest⟩ := ih name (ctx.setWarning .invalidCharacter)
            exact ⟨hbeg, hpos.trans (List.suffix_cons ..), hrest⟩
          · split
            · exact herror _ rfl
            · obtain ⟨hbeg, hpos, hrest⟩ := ih (name ++ [toLowerCopy c]) ctx
              exact ⟨hbeg, hpos.trans (List.suffix_cons ..), hrest⟩

theorem pastColon_of_cons {ctx : Ctx σ} (h : ':' :: ctx.pos <:+ ctx.beg) : PastColon ctx := by
  obtain ⟨run, hrun⟩ := h
  have hslice : slice ctx.beg ctx.pos = run ++ [':'] := by
    rw [← hrun, List.append_cons, slice_append]
  rw [PastColon, hslice]
  exact List.mem_append_right run List.mem_cons_self

/-- What `parse_scheme` leaves where it has come to the colon. -/
theorem schemeSwitch_safe {name : List Char} {ctx : Ctx σ} (hbeg : ctx.pos <:+ ctx.beg)
    (hcolon : ctx.pos.head? = some ':') :
    Safe (fun ctx' => SchemeLeft o ctx ctx' ∧ PastColon ctx') (schemeSwitch o O name ctx) := by
  cases hpos : ctx.pos with
  | nil =>
      rw [hpos] at hcolon
      cases hcolon
  | cons c rest =>
      rw [hpos] at hcolon hbeg
      cases hcolon
      have hleft {ctx₀ ctx' : Ctx σ} (hbeg₀ : ctx₀.beg = ctx.beg)
          (h : SchemeLeft o { ctx₀ with pos := rest } ctx') :
          SchemeLeft o ctx ctx' ∧ PastColon ctx' := by
        have hpast : PastColon { ctx₀ with pos := rest } := pastColon_of_cons (hbeg₀ ▸ hbeg)
        refine ⟨⟨⟨h.lowers.beg.trans hbeg₀, ?_, h.lowers.rank⟩, h.fileHost⟩,
          hpast.ahead h.lowers.beg h.lowers.pos⟩
        rw [hpos]
        exact h.lowers.pos.trans (List.suffix_cons ..)
      have hset (scheme : List Char) : (setScheme O scheme ctx).beg = ctx.beg := by
        rw [setScheme]
        split <;> rfl
      have hlower : (setSchemeLower o O ctx).beg = ctx.beg := by
        rw [setSchemeLower]
        split <;> rfl
      rw [schemeSwitch, hpos, advance_one_cons, ok_bind]
      simp only
      split
      · exact hleft (hset _) (afterSpecialScheme_left _)
      · split
        · exact hleft (hset _) (afterFileScheme_left _)
        · exact hleft hlower (afterOtherScheme_left _)

theorem schemeStart_safe {ctx : Ctx σ} (hne : ctx.pos ≠ []) (hskips : SkipsInside o ctx.pos) :
    Safe (fun r => r.2.beg = ctx.beg ∧ ∀ pos, r.1 = some pos → pos ≠ [] ∧ pos <:+ ctx.pos)
      (schemeStart o ctx) := by
  obtain ⟨c, rest, hcons⟩ := List.exists_cons_of_ne_nil hne
  rw [schemeStart, show deref ctx.pos = .ok c by rw [hcons, deref_cons], ok_bind]
  split
  · refine ⟨rfl, ?_⟩
    rintro _ ⟨⟩
    exact ⟨hne, List.suffix_refl _⟩
  · split
    · rename_i htab
      have hignore : o.ignoreTabsOrNewlines = true := (Bool.and_eq_true_iff.mp htab).1
      have hdrop : ctx.pos.dropWhile isTabOrNewline ≠ [] := by
        intro hnil
        obtain ⟨d, hd, hskip⟩ := hskips
        exact hskip ⟨List.dropWhile_eq_nil_iff.mp hnil d hd, hignore⟩
      obtain ⟨d, rest', hcons'⟩ := List.exists_cons_of_ne_nil hdrop
      simp only
      rw [show deref (ctx.pos.dropWhile isTabOrNewline) = .ok d by rw [hcons', deref_cons],
        ok_bind]
      refine ⟨rfl, fun pos hpos => ?_⟩
      split at hpos
      · cases hpos
        exact ⟨hdrop, List.dropWhile_suffix _⟩
      · cases hpos
    · exact ⟨rfl, fun _ h => absurd h (Option.some_ne_none _).symm⟩

/-- What `parse_scheme` leaves: an authority only behind the colon. -/
structure ParsedScheme (o : Options) (ctx ctx' : Ctx σ) : Prop where
  proceeds : Proceeds 7 ctx ctx'
  fileHost : ctx'.status.value = .validFileHost → o.allowFileHosts = true
  colon : ctx'.status.value.rank ≠ 0 → PastColon ctx'

theorem ParsedScheme.error {ctx ctx' : Ctx σ} (hbeg : ctx'.beg = ctx.beg)
    (hpos : ctx'.pos <:+ ctx.beg) (hrank : ctx'.status.value.rank = 0) :
    ParsedScheme o ctx ctx' := by
  refine ⟨.lower hbeg hpos (hrank ▸ Nat.succ_pos 6), fun h => ?_, fun h => absurd hrank h⟩
  rw [h] at hrank
  cases hrank

theorem parseScheme_safe {ctx : Ctx σ} (hbeg : ctx.pos <:+ ctx.beg)
    (hskips : ctx.pos ≠ [] → SkipsInside o ctx.pos) :
    Safe (ParsedScheme o ctx) (parseScheme o O ctx) := by
  rw [parseScheme]
  split
  · exact .error rfl hbeg rfl
  · rename_i hne
    refine (schemeStart_safe hne (hskips hne)).bind fun r hr => ?_
    obtain ⟨hbeg', hstart⟩ := hr
    split
    · exact .error hbeg' (hbeg' ▸ List.suffix_refl _) rfl
    · rename_i pos heq
      obtain ⟨hne', hpos'⟩ := hstart pos heq
      obtain ⟨c, rest, rfl⟩ := List.exists_cons_of_ne_nil hne'
      rw [deref_cons, ok_bind]
      obtain ⟨hbeg'', hpos'', herror, hcolon⟩ :=
        schemeLoop_spec (o := o) rest [toLowerCopy c] r.2
      have hsuffix := (hpos''.trans ((List.suffix_cons ..).trans hpos')).trans hbeg
      simp only [List.tail_cons]
      generalize schemeLoop o rest [toLowerCopy c] r.2 = r' at hbeg'' hpos'' herror hcolon hsuffix
      have hbegs := hbeg''.trans hbeg'
      split
      · rename_i hnone
        exact .error hbegs hsuffix (herror hnone)
      · rename_i name hsome
        rw [hsome] at hcolon
        rw [← hbegs] at hsuffix
        refine (schemeSwitch_safe hsuffix (hcolon (Option.some_ne_none _))).mono fun ctx' h => ?_
        obtain ⟨⟨⟨hbegL, hposL, hrankL⟩, hfile⟩, hpast⟩ := h
        refine ⟨.lower (hbegL.trans hbegs) ?_ hrankL, hfile, fun _ => hpast⟩
        rw [← hbegs]
        exact hposL.trans hsuffix

/-! ## The rounds of `parse_uri` -/

/-- No round of `parse_queries` passes the end. -/
def AllQueriesRounds (o : Options) (O : Output σ) (ctx : Ctx σ) : Prop :=
  ∀ s, Reaches (queriesStep o O (queryPercentEncodeSet ctx.scheme)) ⟨ofCtx ctx, false⟩ s →
    QueriesRound o O s

/-- No round of `parse_fragment` passes the end. -/
def AllFragmentRounds (o : Options) (O : Output σ) (ctx : Ctx σ) : Prop :=
  ∀ e, Reaches (fragmentStep o O) (ofCtx ctx) e → FragmentRound o e

/-- The parser of the status does not pass the end. -/
def UriRound (o : Options) (O : Output σ) (ctx : Ctx σ) : Prop :=
  match ctx.status.value with
  | .unparsed | .validAuthorityEnd => ctx.pos ≠ [] → SkipsInside o ctx.pos
  | .validAuthority => AuthorityRounds o O ctx
  | .validFileHost => FileHostRounds o O ctx
  | .validOpaquePath => OpaquePathRounds o O ctx
  | .validPath => PathRounds o O ctx
  | .validQueries => AllQueriesRounds o O ctx
  | .validFragment => AllFragmentRounds o O ctx
  | _ => True

/-- The options of the presets parse all components. -/
structure ParsesAll (o : Options) : Prop where
  port : o.parsePort = true
  queries : o.parseQueries = true
  fragment : o.parseFragment = true

/-- The component of the status is parsed, or there is nothing left to parse. -/
def SwitchedOn (o : Options) (ctx : Ctx σ) : Prop :=
  match ctx.status.value with
  | .validPort => o.parsePort = true ∨ ctx.pos = []
  | .validAuthorityEnd =>
      ctx.pos ≠ [] → isSpecialScheme ctx.scheme = false → EndSwitchedOn o ctx.pos
  | .validQueries => o.parseQueries = true ∨ ctx.pos = [] ∨ o.allowInvalidCharacters = false
  | .validFragment => o.parseFragment = true ∨ ctx.pos = []
  | _ => True

theorem ParsesAll.switchedOn (h : ParsesAll o) (ctx : Ctx σ) : SwitchedOn o ctx := by
  rw [SwitchedOn]
  split
  · exact .inl h.port
  · exact fun _ _ => ⟨fun _ => h.queries, fun _ => h.fragment⟩
  · exact .inl h.queries
  · exact .inl h.fragment
  · trivial

/-- What the rounds of `parse_uri` keep. -/
structure UriInv (o : Options) (text : List Char) (ctx : Ctx σ) : Prop where
  beg : ctx.beg = text
  pos : ctx.pos <:+ text
  rank : ctx.status.value.rank ≤ 7
  fileHost : ctx.status.value = .validFileHost → o.allowFileHosts = true
  colon : ctx.status.value.rank = 6 → PastColon ctx

/-- The rounds that are left: a position for each status. -/
def uriMeasure (ctx : Ctx σ) : ℕ :=
  ctx.status.value.rank * (ctx.beg.length + 1) + ctx.pos.length

section Rounds

variable {text : List Char} {ctx ctx' : Ctx σ}

theorem UriInv.suffix (h : UriInv o text ctx) : ctx.pos <:+ ctx.beg := by
  rw [h.beg]
  exact h.pos

theorem Proceeds.measure_lt {bound : ℕ} (h : Proceeds bound ctx ctx')
    (hbound : bound ≤ ctx.status.value.rank) : uriMeasure ctx' < uriMeasure ctx := by
  rw [uriMeasure, uriMeasure, h.beg]
  rcases h.next with hrank | ⟨hvalue, -, hlt⟩
  · have hpos := h.pos.length_le
    have hmul := Nat.mul_le_mul_right (ctx.beg.length + 1) (Nat.le_trans hrank hbound)
    rw [Nat.succ_mul] at hmul
    omega
  · rw [hvalue]
    omega

theorem UriInv.proceeds (h : UriInv o text ctx) {bound : ℕ} (hbound : bound ≤ 6)
    (h' : Proceeds bound ctx ctx') : UriInv o text ctx' := by
  have hbeg := h'.beg.trans h.beg
  have hpos : ctx'.pos <:+ text := by
    rw [← h.beg]
    exact h'.pos
  rcases h'.next with hrank | ⟨hvalue, hsuffix, -⟩
  · refine ⟨hbeg, hpos, by omega, fun hfile => ?_, fun hsix => by omega⟩
    rw [hfile] at hrank
    exact absurd (Nat.lt_of_lt_of_le hrank hbound) (by decide)
  · refine ⟨hbeg, hpos, hvalue ▸ h.rank, hvalue ▸ h.fileHost, fun hsix => ?_⟩
    rw [hvalue] at hsix
    exact (h.colon hsix).ahead h'.beg hsuffix

/-- What a round of `parse_uri` leads to. -/
abbrev UriFlow (o : Options) (text : List Char) (ctx : Ctx σ) :
    Flow (Ctx σ) (Ctx σ) → Prop :=
  FlowSat (fun ctx' => UriInv o text ctx' ∧ uriMeasure ctx' < uriMeasure ctx) (UriInv o text)

theorem UriInv.flow (h : UriInv o text ctx) {bound : ℕ} (hbound : bound ≤ 6)
    (hrank : bound ≤ ctx.status.value.rank) {x : Run (Ctx σ)} (hx : Safe (Proceeds bound ctx) x) :
    Safe (UriFlow o text ctx) (do
      let ctx ← x
      pure (.next ctx)) :=
  hx.bind fun _ hctx' => ⟨h.proceeds hbound hctx', hctx'.measure_lt hrank⟩

theorem parseUriStep_safe (hO : O.Lawful) (hon : SwitchedOn o ctx) (h : UriInv o text ctx)
    (herror : ctx.status.hasError = false) (hround : UriRound o O ctx) :
    Safe (UriFlow o text ctx) (parseUriStep o O ctx) := by
  have hbeg := h.suffix
  rw [UriRound] at hround
  rw [SwitchedOn] at hon
  rw [parseUriStep]
  cases hvalue : ctx.status.value <;> rw [hvalue] at hround hon
  case valid => exact h
  case validPunycode => exact h
  case validAuthority =>
    exact h.flow (Nat.le_refl 6) (hvalue ▸ Nat.le_refl 6)
      (parseAuthority_safe hbeg (h.colon (hvalue ▸ rfl)) hround)
  case validFileHost =>
    simp only [h.fileHost hvalue, if_true]
    exact h.flow (Nat.le_refl 6) (hvalue ▸ Nat.le_refl 6)
      (parseFileHost_safe hbeg (h.colon (hvalue ▸ rfl)) hround)
  case validPort =>
    refine h.flow (show 5 ≤ 6 by decide) (hvalue ▸ Nat.le_refl 5) ?_
    exact (parsePort_safe o O hon).mono fun ctx' h' => h'.proceeds hbeg
  case validAuthorityEnd =>
    refine h.flow (show 4 ≤ 6 by decide) (hvalue ▸ Nat.le_refl 4) ?_
    exact (parseAuthorityEnd_safe hon hround).mono fun ctx' h' => h'.proceeds hbeg
  case validOpaquePath =>
    exact h.flow (by decide) (hvalue ▸ Nat.le_refl 3) (parseOpaquePath_safe o O hbeg hround)
  case validPath =>
    exact h.flow (by decide) (hvalue ▸ Nat.le_refl 3) (parsePath_safe hO hbeg hround)
  case validQueries =>
    exact h.flow (by decide) (hvalue ▸ Nat.le_refl 2) (parseQueries_safe O hon hbeg hround)
  case validFragment =>
    exact h.flow (by decide) (hvalue ▸ Nat.le_refl 1)
      (parseFragment_safe O hon hbeg hround)
  case unparsed =>
    refine (parseScheme_safe hbeg hround).bind fun ctx' h' => ?_
    refine ⟨⟨h'.proceeds.beg.trans h.beg, ?_, ?_, h'.fileHost, fun hsix => h'.colon (by omega)⟩,
      h'.proceeds.measure_lt (hvalue ▸ Nat.le_refl 7)⟩
    · rw [← h.beg]
      exact h'.proceeds.pos
    · rcases h'.proceeds.next with hrank | ⟨hsame, -⟩
      · exact Nat.le_of_lt hrank
      · exact hsame ▸ h.rank
  case validPathOrAuthority => exact absurd h.rank (by rw [hvalue]; decide)
  all_goals
    rw [Status.hasError, hvalue] at herror
    cases herror

theorem parseUriRound_safe (hO : O.Lawful) (hon : SwitchedOn o ctx) (h : UriInv o text ctx)
    (hround : UriRound o O ctx) : Safe (UriFlow o text ctx) (parseUriRound o O ctx) := by
  rw [parseUriRound]
  split
  · exact h
  · rename_i herror
    exact parseUriStep_safe hO hon h (Bool.eq_false_iff.mpr herror) hround

end Rounds

/-! ## Runs of `parse_uri` -/

theorem uriInv_startCtx (out : σ) (text : List Char) : UriInv o text (startCtx out text) :=
  ⟨rfl, List.suffix_refl _, Nat.le_refl 7, fun h => UriStatus.noConfusion h,
    fun h => absurd (show 7 = 6 from h) (by decide)⟩

theorem uriMeasure_startCtx (out : σ) (text : List Char) :
    uriMeasure (startCtx out text) < uriRounds (startCtx out text) := by
  show 7 * (text.length + 1) + text.length < 8 * (text.length + 1)
  omega

/-- `parse_uri` ends, it never reads or moves past the end or before the start, and the
position lies in the text in every state that is reached. -/
structure StaysInside (o : Options) (O : Output σ) (ctx : Ctx σ) : Prop where
  ends : Safe (fun ctx' => ctx'.pos <:+ ctx.beg) (parseUri o O ctx)
  reached : ∀ ctx', Reaches (parseUriRound o O) ctx ctx' →
    ctx'.beg = ctx.beg ∧ ctx'.pos <:+ ctx.beg

theorem staysInside_of_rounds (hO : O.Lawful) (ho : ParsesAll o) (out : σ) (text : List Char)
    (hrounds : ∀ ctx, Reaches (parseUriRound o O) (startCtx out text) ctx → UriRound o O ctx) :
    StaysInside o O (startCtx out text) := by
  have hround (ctx : Ctx σ) (hreach : Reaches (parseUriRound o O) (startCtx out text) ctx)
      (h : UriInv o text ctx) : Safe (UriFlow o text ctx) (parseUriRound o O ctx) :=
    parseUriRound_safe hO (ho.switchedOn ctx) h (hrounds ctx hreach)
  refine ⟨?_, fun ctx hreach => ?_⟩
  · have hrun : Safe (UriInv o text) (parseUri o O (startCtx out text)) :=
      loop_sat (UriInv o text) _ uriMeasure (uriInv_startCtx out text) hround
        (uriMeasure_startCtx out text)
    exact hrun.mono fun ctx h => h.pos
  · have hinv : UriInv o text ctx := by
      refine hreach.invariant (uriInv_startCtx out text) fun ctx ctx' hreach h hstep => ?_
      have hsafe := hround ctx hreach h
      rw [hstep] at hsafe
      exact hsafe.1
    exact ⟨hinv.beg, hinv.pos⟩

theorem Preset.parsesAll (preset : Preset) : ParsesAll preset.options := by
  cases preset <;> exact ⟨rfl, rfl, rfl⟩

theorem ContextKind.lawful (kind : ContextKind) : kind.output.Lawful := by
  intro comp f out hf
  cases kind with
  | string => exact (hf _).bind fun _ _ => trivial
  | view => exact (hf _).bind fun _ _ => trivial
  | u32 => trivial
  | segregated =>
      show Safe _ (segregatedOutput.edit comp f out)
      rw [segregatedOutput]
      simp only
      split
      · exact (hf _).bind fun _ _ => trivial
      · exact (hf _).bind fun _ _ => trivial
  | segregatedView =>
      show Safe _ (segregatedOutput.edit comp f out)
      rw [segregatedOutput]
      simp only
      split
      · exact (hf _).bind fun _ _ => trivial
      · exact (hf _).bind fun _ _ => trivial

/-- The rounds of a URI with an opaque path, whether queries are parsed or not. -/
theorem opaque_rounds (parseQueries : Bool) (ctx : Ctx (Components → List Char))
    (hreach : Reaches (parseUriRound { standardUriParsingOptions with parseQueries } viewOutput)
      (startCtx (fun _ => []) ['a', ':', 'b']) ctx) :
    UriRound { standardUriParsingOptions with parseQueries } viewOutput ctx ∧
      SwitchedOn { standardUriParsingOptions with parseQueries } ctx := by
  have hscheme : parseUriRound { standardUriParsingOptions with parseQueries } viewOutput
      (startCtx (fun _ => []) ['a', ':', 'b']) = .ok (.next ⟨['a', ':', 'b'], ['b'],
        Function.update (Function.update (fun _ => []) .scheme ['a']) .path [],
        ⟨.validOpaquePath, ∅⟩, .notSpecial⟩) := rfl
  have hpath : parseUriRound { standardUriParsingOptions with parseQueries } viewOutput
      ⟨['a', ':', 'b'], ['b'],
        Function.update (Function.update (fun _ => []) .scheme ['a']) .path [],
        ⟨.validOpaquePath, ∅⟩, .notSpecial⟩ = .ok (.next ⟨['a', ':', 'b'], [],
        Function.update (Function.update (Function.update (fun _ => []) .scheme ['a']) .path [])
          .path ['b'], ⟨.valid, ∅⟩, .notSpecial⟩) := rfl
  rcases hreach.head with rfl | ⟨ctx₁, hstep, hreach⟩
  · exact ⟨fun _ => ⟨'a', List.mem_cons_self, fun h => absurd h.1 (by decide)⟩, trivial⟩
  · cases hscheme.symm.trans hstep
    rcases hreach.head with rfl | ⟨ctx₂, hstep, hreach⟩
    · refine ⟨fun e hreach => ?_, trivial⟩
      rcases hreach.head with rfl | ⟨e₁, hstep, hreach⟩
      · exact ⟨.inl rfl, fun r h => by cases h⟩
      · cases hstep
    · cases hpath.symm.trans hstep
      rcases hreach.head with rfl | ⟨ctx₃, hstep, hreach⟩
      · exact ⟨trivial, trivial⟩
      · cases hstep

end Webpp.Uri
