import Webpp.Uri.PathState
import Webpp.Uri.PresetTexts

/-!
# Special schemes under two presets

On a text without tabs the presets read the same scheme. The slashes behind its colon are
passed over in different ways, but all of them: only in front of the end of the text it makes a
difference, where there is no host.
-/

namespace Webpp.Uri

open ComponentEncoder Ctx Webpp.Text

variable {σ : Type} {o : Options} {pos : List Char} {ctx : Ctx σ}

/-- The name of the scheme of a text. -/
def schemeName (text : List Char) : List Char := (text.takeWhile (· ≠ ':')).map toLowerCopy

/-- The text behind the slashes of a special URI. -/
def authorityText (text : List Char) : List Char :=
  (text.dropWhile (· ≠ ':')).tail.dropWhile isSlash

/-! ## The slashes -/

theorem setWarning_setWarning (ctx : Ctx σ) (warning : UriWarning) :
    (ctx.setWarning warning).setWarning warning = ctx.setWarning warning := by
  simp [Ctx.setWarning, Status.setWarning]

theorem ignoreSlashes_cons {c : Char} (hhead : isTabOrNewline c = false ∧ c ≠ '\x00')
    (pos : List Char) (ctx : Ctx σ) :
    ignoreSlashes o (c :: pos) ctx =
      if c = '\\' ∨ c = '/' then ignoreSlashes o pos (ctx.setWarning .missingFollowingSolidus)
      else { ctx with pos := c :: pos }.setValid .validAuthority := by
  rw [ignoreSlashes]
  simp [hhead.1, hhead.2]

theorem ignoreSlashes_alike (hun : Untabbed pos) (ctx : Ctx σ) :
    ignoreSlashes standardUriParsingOptions pos ctx =
      ignoreSlashes strictUriParsingOptions pos ctx := by
  induction pos generalizing ctx with
  | nil => rfl
  | cons c pos ih =>
      rw [ignoreSlashes_cons hun.head, ignoreSlashes_cons hun.head, ih hun.tail]

/-- What the slashes leave. -/
structure SlashesLeft (T : List Char) (ctx a : Ctx σ) : Prop where
  scheme : a.scheme = ctx.scheme
  value : a.status.value = .validAuthority
  pos : a.pos = T

theorem ignoreSlashes_passed (hun : Untabbed pos) (ctx : Ctx σ) :
    SlashesLeft (pos.dropWhile isSlash) ctx (ignoreSlashes o pos ctx) := by
  induction pos generalizing ctx with
  | nil => exact ⟨rfl, rfl, rfl⟩
  | cons c pos ih =>
      rw [ignoreSlashes_cons hun.head]
      by_cases hc : c = '\\' ∨ c = '/'
      · rw [if_pos hc, List.dropWhile_cons_of_pos (by simpa [isSlash, or_comm] using hc)]
        obtain ⟨hscheme, hvalue, hpos⟩ := ih hun.tail (ctx.setWarning .missingFollowingSolidus)
        exact ⟨hscheme, hvalue, hpos⟩
      · rw [if_neg hc, List.dropWhile_cons_of_neg (by simpa [isSlash, or_comm] using hc)]
        exact ⟨rfl, rfl, rfl⟩

theorem ignoreSlashes_slash (hun : Untabbed ('/' :: pos)) (ctx : Ctx σ) :
    ignoreSlashes o ('/' :: pos) (ctx.setWarning .missingFollowingSolidus) =
      ignoreSlashes o pos (ctx.setWarning .missingFollowingSolidus) := by
  rw [ignoreSlashes_cons hun.head, if_pos (.inr rfl), setWarning_setWarning]

theorem ignoreSlashes_pos (pos pos' : List Char) (ctx : Ctx σ) :
    ignoreSlashes o pos { ctx with pos := pos' } = ignoreSlashes o pos ctx := by
  induction pos generalizing ctx with
  | nil => rfl
  | cons c pos ih =>
      rw [ignoreSlashes, ignoreSlashes]
      have hwarned (warning : UriWarning) : ({ ctx with pos := pos' } : Ctx σ).setWarning warning =
          { ctx.setWarning warning with pos := pos' } := rfl
      simp only [hwarned, ih]

/-! ## Behind the colon -/

theorem safelyIncIfLoop_cons {c : Char} (hc : isTabOrNewline c = false) (val : Char)
    (vals pos : List Char) (ctx : Ctx σ) :
    safelyIncIfLoop (val :: vals) (c :: pos) ctx =
      if c = val then safelyIncIfLoop vals pos ctx else (false, { ctx with pos := c :: pos }) := by
  rw [safelyIncIfLoop]
  simp only [hc, Bool.false_eq_true, if_false, ite_not]

theorem ignoreSlashes_missing {pos pos' : List Char} (hun : Untabbed pos)
    (hpos : pos = pos' ∨ pos = '/' :: pos') (ctx : Ctx σ) :
    ignoreSlashes standardUriParsingOptions pos'
        ({ ctx with pos := pos' }.setWarning .missingFollowingSolidus) =
      ignoreSlashes strictUriParsingOptions pos (ctx.setWarning .missingFollowingSolidus) := by
  have hmoved : ({ ctx with pos := pos' } : Ctx σ).setWarning .missingFollowingSolidus =
      { ctx.setWarning .missingFollowingSolidus with pos := pos' } := rfl
  rw [hmoved, ignoreSlashes_pos]
  rcases hpos with rfl | rfl
  · exact ignoreSlashes_alike hun _
  · rw [ignoreSlashes_slash hun]
    exact ignoreSlashes_alike hun.tail _

/-- The two slashes under the presets: they are there, they end the text, or they are missing. -/
inductive SlashesFound (ctx : Ctx σ) : Bool × Ctx σ → Bool × Ctx σ → Prop where
  | found {pos : List Char} (hpos : ctx.pos = '/' :: '/' :: pos) :
      SlashesFound ctx (true, { ctx with pos := pos }) (true, { ctx with pos := pos })
  | atEnd (hpos : ctx.pos = ['/', '/']) :
      SlashesFound ctx (false, { ctx with pos := [] }) (true, { ctx with pos := [] })
  | missing {pos : List Char} (hpos : ctx.pos = pos ∨ ctx.pos = '/' :: pos) :
      SlashesFound ctx (false, { ctx with pos := pos }) (false, ctx)

theorem safelyIncIf_alike (hun : Untabbed ctx.pos) :
    SlashesFound ctx (safelyIncIf standardUriParsingOptions ['/', '/'] ctx)
      (safelyIncIf strictUriParsingOptions ['/', '/'] ctx) := by
  have hstandard : safelyIncIf standardUriParsingOptions ['/', '/'] ctx =
      safelyIncIfLoop ['/', '/'] ctx.pos ctx := rfl
  have hstrict : safelyIncIf strictUriParsingOptions ['/', '/'] ctx =
      if ['/', '/'].isPrefixOf ctx.pos then (true, { ctx with pos := ctx.pos.drop 2 })
      else (false, ctx) := rfl
  rw [hstandard, hstrict]
  rcases hpos : ctx.pos with _ | ⟨c, pos⟩
  · exact .missing (.inl hpos)
  · rw [hpos] at hun
    rw [safelyIncIfLoop_cons hun.head.1]
    by_cases hc : c = '/'
    · subst hc
      rw [if_pos rfl]
      rcases pos with _ | ⟨d, pos⟩
      · exact .missing (.inr hpos)
      · rw [safelyIncIfLoop_cons hun.tail.head.1]
        by_cases hd : d = '/'
        · subst hd
          rw [if_pos rfl]
          rcases pos with _ | ⟨e, pos⟩
          · exact .atEnd hpos
          · exact .found hpos
        · have hprefix : ¬['/', '/'].isPrefixOf ('/' :: d :: pos) = true := by
            simpa [List.isPrefixOf] using fun h : '/' = d => hd h.symm
          rw [if_neg hd, if_neg hprefix]
          exact .missing (.inr hpos)
    · have hprefix : ¬['/', '/'].isPrefixOf (c :: pos) = true := by
        simp [List.isPrefixOf, Ne.symm hc]
      rw [if_neg hc, if_neg hprefix]
      exact .missing (.inl hpos)

theorem afterSpecialScheme_alike (hun : Untabbed ctx.pos) :
    afterSpecialScheme standardUriParsingOptions ctx =
      afterSpecialScheme strictUriParsingOptions ctx ∨ ctx.pos.dropWhile isSlash = [] := by
  have hfound : SlashesFound { ctx with scheme := .specialScheme } _ _ := safelyIncIf_alike hun
  rw [afterSpecialScheme, afterSpecialScheme]
  generalize safelyIncIf standardUriParsingOptions ['/', '/']
    { ctx with scheme := .specialScheme } = r₁ at hfound
  generalize safelyIncIf strictUriParsingOptions ['/', '/']
    { ctx with scheme := .specialScheme } = r₂ at hfound
  cases hfound with
  | found hpos =>
      rename_i pos
      have hpos' : Untabbed pos := by
        rw [show ctx.pos = '/' :: '/' :: pos from hpos] at hun
        exact hun.tail.tail
      exact .inl (ignoreSlashes_alike hpos' _)
  | atEnd hpos =>
      right
      rw [show ctx.pos = ['/', '/'] from hpos]
      rfl
  | missing hpos => exact .inl (ignoreSlashes_missing hun hpos _)

/-- No more than slashes is passed over. -/
structure OverSlashes (ctx ctx' : Ctx σ) : Prop where
  scheme : ctx'.scheme = ctx.scheme
  suffix : ctx'.pos <:+ ctx.pos
  pos : ctx'.pos.dropWhile isSlash = ctx.pos.dropWhile isSlash

theorem SlashesFound.over {r₁ r₂ : Bool × Ctx σ} (h : SlashesFound ctx r₁ r₂) :
    OverSlashes ctx r₁.2 ∧ OverSlashes ctx r₂.2 := by
  have hover (run : List Char) {pos : List Char} (hpos : ctx.pos = run ++ pos)
      (hrun : ∀ c ∈ run, isSlash c = true) : OverSlashes ctx { ctx with pos := pos } := by
    refine ⟨rfl, hpos ▸ List.suffix_append run pos, ?_⟩
    rw [hpos, List.dropWhile_append_of_pos hrun]
  cases h with
  | found hpos => exact ⟨hover ['/', '/'] hpos (by decide), hover ['/', '/'] hpos (by decide)⟩
  | atEnd hpos => exact ⟨hover ['/', '/'] hpos (by decide), hover ['/', '/'] hpos (by decide)⟩
  | missing hpos =>
      refine ⟨?_, ⟨rfl, List.suffix_refl _, rfl⟩⟩
      rcases hpos with hpos | hpos
      · exact hover [] hpos (by simp)
      · exact hover ['/'] hpos (by decide)

theorem slashesLeft_of_over (hun : Untabbed ctx.pos) {r : Bool × Ctx σ}
    (h : OverSlashes { ctx with scheme := .specialScheme } r.2) :
    SlashesLeft (ctx.pos.dropWhile isSlash) { ctx with scheme := .specialScheme }
      (specialAuthorityIgnoreSlashesState o
        (if r.1 then r.2 else r.2.setWarning .missingFollowingSolidus)) := by
  have hun' : Untabbed r.2.pos := hun.of_suffix h.suffix
  have hleft : ∀ ctx' : Ctx σ, ctx'.pos = r.2.pos → ctx'.scheme = r.2.scheme →
      SlashesLeft (ctx.pos.dropWhile isSlash) { ctx with scheme := .specialScheme }
        (specialAuthorityIgnoreSlashesState o ctx') := by
    intro ctx' hpos hscheme
    rw [specialAuthorityIgnoreSlashesState, hpos]
    obtain ⟨hscheme', hvalue, hpos'⟩ := ignoreSlashes_passed (o := o) hun' ctx'
    exact ⟨(hscheme'.trans hscheme).trans h.scheme, hvalue, hpos'.trans h.pos⟩
  split
  · exact hleft _ rfl rfl
  · exact hleft _ rfl rfl

theorem afterSpecialScheme_passed (hun : Untabbed ctx.pos) :
    SlashesLeft (ctx.pos.dropWhile isSlash) { ctx with scheme := .specialScheme }
        (afterSpecialScheme standardUriParsingOptions ctx) ∧
      SlashesLeft (ctx.pos.dropWhile isSlash) { ctx with scheme := .specialScheme }
        (afterSpecialScheme strictUriParsingOptions ctx) := by
  have hfound : SlashesFound { ctx with scheme := .specialScheme } _ _ := safelyIncIf_alike hun
  exact ⟨slashesLeft_of_over hun hfound.over.1, slashesLeft_of_over hun hfound.over.2⟩

/-! ## The name -/

/-- The loop over the name: up to the colon, or to an error. -/
inductive NameLeft (pos name : List Char) (ctx : Ctx σ) : Option (List Char) × Ctx σ → Prop where
  | colon {rest : List Char} (hpos : pos.dropWhile (· ≠ ':') = ':' :: rest) :
      NameLeft pos name ctx (some (name ++ (pos.takeWhile (· ≠ ':')).map toLowerCopy),
        { ctx with pos := ':' :: rest })
  | error {ctx' : Ctx σ} (herror : ctx'.status.hasError = true) : NameLeft pos name ctx (none, ctx')

theorem schemeLoop_left (hun : Untabbed pos) (name : List Char) (ctx : Ctx σ) :
    NameLeft pos name ctx (schemeLoop o pos name ctx) := by
  induction pos generalizing name with
  | nil => exact .error rfl
  | cons c pos ih =>
      rw [schemeLoop]
      simp only [hun.head.1, hun.head.2, Bool.false_eq_true, false_and, if_false]
      by_cases hc : c = ':'
      · subst hc
        rw [if_pos rfl]
        have hleft : NameLeft (':' :: pos) name ctx
            (some (name ++ ((':' :: pos).takeWhile (· ≠ ':')).map toLowerCopy),
              { ctx with pos := ':' :: pos }) := .colon rfl
        simpa using hleft
      · rw [if_neg hc]
        split
        · exact .error rfl
        · have hdrop : (c :: pos).dropWhile (· ≠ ':') = pos.dropWhile (· ≠ ':') :=
            List.dropWhile_cons_of_pos (decide_eq_true hc)
          have htake : (c :: pos).takeWhile (· ≠ ':') = c :: pos.takeWhile (· ≠ ':') :=
            List.takeWhile_cons_of_pos (decide_eq_true hc)
          have hleft := ih hun.tail (name ++ [toLowerCopy c])
          generalize schemeLoop o pos (name ++ [toLowerCopy c]) ctx = r at hleft
          cases hleft with
          | colon hpos =>
              rename_i rest
              have hleft : NameLeft (c :: pos) name ctx
                  (some (name ++ ((c :: pos).takeWhile (· ≠ ':')).map toLowerCopy),
                    { ctx with pos := ':' :: rest }) := .colon (hdrop.trans hpos)
              rw [htake] at hleft
              simpa using hleft
          | error herror => exact .error herror

theorem schemeLoop_alike (hun : Untabbed pos) (name : List Char) (ctx : Ctx σ) :
    schemeLoop standardUriParsingOptions pos name ctx =
      schemeLoop strictUriParsingOptions pos name ctx := by
  induction pos generalizing name with
  | nil => rfl
  | cons c pos ih =>
      rw [schemeLoop, schemeLoop]
      simp only [hun.head.1, hun.head.2, Bool.false_eq_true, false_and, if_false, ih hun.tail]

/-! ## `parse_scheme` -/

section Scheme

variable {O : Output σ} {ctx : Ctx σ} {c : Char} {pos : List Char}

theorem schemeStart_cons (hpos : ctx.pos = c :: pos) (hc : isTabOrNewline c = false) :
    schemeStart o ctx = .ok (if asciiAlpha.contains c then some ctx.pos else none, ctx) := by
  rw [schemeStart, hpos, deref_cons, ok_bind]
  split
  · rfl
  · rw [if_neg (by rw [hc, Bool.and_false]; exact Bool.false_ne_true)]
    rfl

theorem schemeSwitch_special (O : Output σ) {name : List Char} (hname : name ∈ specialSchemes)
    {rest : List Char} (hpos : ctx.pos = ':' :: rest) :
    ∃ ctx' : Ctx σ, ctx'.pos = rest ∧ ∀ o : Options,
      schemeSwitch o O name ctx = .ok (afterSpecialScheme o ctx') := by
  cases hfind : specialSchemes.find? fun scheme => schemeCode scheme == schemeCode name with
  | none =>
      have hnone := List.find?_eq_none.mp hfind name hname
      simp at hnone
  | some scheme =>
      refine ⟨{ setScheme O scheme ctx with pos := rest }, rfl, fun o => ?_⟩
      rw [schemeSwitch, hpos, advance_one_cons, ok_bind]
      simp only [hfind]
      rfl

/-- What the presets make of a special scheme. -/
structure SchemeAlike (T : List Char) (a₁ a₂ : Ctx σ) : Prop where
  scheme : a₁.scheme = .specialScheme ∧ a₂.scheme = .specialScheme
  value : a₁.status.value = .validAuthority ∧ a₂.status.value = .validAuthority
  pos : a₁.pos = T ∧ a₂.pos = T
  same : a₁ = a₂ ∨ T = []

theorem afterSpecialScheme_pair (hun : Untabbed ctx.pos) :
    SchemeAlike (ctx.pos.dropWhile isSlash) (afterSpecialScheme standardUriParsingOptions ctx)
      (afterSpecialScheme strictUriParsingOptions ctx) := by
  obtain ⟨hleft₁, hleft₂⟩ := afterSpecialScheme_passed hun
  exact ⟨⟨hleft₁.scheme, hleft₂.scheme⟩, ⟨hleft₁.value, hleft₂.value⟩, ⟨hleft₁.pos, hleft₂.pos⟩,
    afterSpecialScheme_alike hun⟩

theorem parseScheme_alike (hun : Untabbed ctx.pos) (hspecial : schemeName ctx.pos ∈ specialSchemes)
    {a₁ a₂ : Ctx σ} (h₁ : parseScheme standardUriParsingOptions O ctx = .ok a₁)
    (h₂ : parseScheme strictUriParsingOptions O ctx = .ok a₂) :
    SchemeAlike (authorityText ctx.pos) a₁ a₂ ∨ a₁.status.hasError = true := by
  rw [parseScheme] at h₁ h₂
  rcases hpos : ctx.pos with _ | ⟨c, pos⟩
  · rw [if_pos hpos] at h₁
    cases h₁
    exact .inr rfl
  · have hne : ctx.pos ≠ [] := by
      rw [hpos]
      exact List.cons_ne_nil c pos
    rw [hpos] at hun hspecial
    rw [if_neg hne, schemeStart_cons hpos hun.head.1, ok_bind] at h₁ h₂
    by_cases halpha : asciiAlpha.contains c = true
    · rw [if_pos halpha] at h₁ h₂
      simp only [hpos, deref_cons, ok_bind, List.tail_cons] at h₁ h₂
      rw [← schemeLoop_alike hun.tail] at h₂
      have hleft := schemeLoop_left (o := standardUriParsingOptions) hun.tail [toLowerCopy c] ctx
      generalize schemeLoop standardUriParsingOptions pos [toLowerCopy c] ctx = r at h₁ h₂ hleft
      cases hleft with
      | colon hcolon =>
          rename_i rest
          have hc : c ≠ ':' := by
            rintro rfl
            exact absurd halpha (by decide)
          have htake : (c :: pos).takeWhile (· ≠ ':') = c :: pos.takeWhile (· ≠ ':') :=
            List.takeWhile_cons_of_pos (decide_eq_true hc)
          have hdrop : (c :: pos).dropWhile (· ≠ ':') = pos.dropWhile (· ≠ ':') :=
            List.dropWhile_cons_of_pos (decide_eq_true hc)
          have hname : [toLowerCopy c] ++ (pos.takeWhile (· ≠ ':')).map toLowerCopy =
              schemeName (c :: pos) := by
            rw [schemeName, htake]
            rfl
          have hrest : Untabbed rest := by
            refine hun.of_suffix ?_
            have hsuffix := List.dropWhile_suffix (l := pos) (fun c => decide (c ≠ ':'))
            rw [hcolon] at hsuffix
            exact ((List.suffix_cons ..).trans hsuffix).trans (List.suffix_cons ..)
          rw [hname] at h₁ h₂
          obtain ⟨ctx', hpos', hswitch⟩ := schemeSwitch_special O hspecial
            (show ({ ctx with pos := ':' :: rest } : Ctx σ).pos = ':' :: rest from rfl)
          replace h₁ := (hswitch standardUriParsingOptions).symm.trans h₁
          replace h₂ := (hswitch strictUriParsingOptions).symm.trans h₂
          cases h₁
          cases h₂
          rw [← hpos'] at hrest
          have hpair := afterSpecialScheme_pair hrest
          rw [hpos'] at hpair
          rw [authorityText, hdrop, hcolon]
          exact .inl hpair
      | error herror =>
          cases h₁
          exact .inr herror
    · rw [if_neg halpha] at h₁
      cases h₁
      exact .inr rfl

end Scheme

end Webpp.Uri
