import Webpp.Uri.Scheme

/-!
# `safely_inc_if`

The expected characters come next where they stand one behind another, with characters that are
ignored in front of each of them. The loop returns from inside of the text, so it does not find
what ends the text, and it has moved over what it has compared also when it does not find them all.
-/

namespace Webpp.Uri

open ComponentEncoder

variable {σ : Type}

/-! ## Without ignored characters -/

/-- `ascii::inc_if`: what is returned, and the position. -/
def incIf (vals pos : List Char) : Bool × List Char :=
  match vals with
  | [val] =>
      match pos with
      | [] => (false, pos)
      | c :: rest => if val = c then (true, rest) else (false, pos)
  | _ =>
      if vals.length ≤ pos.length ∧ pos.take vals.length = vals then
        (true, pos.drop vals.length)
      else (false, pos)

theorem incIf_append (vals rest : List Char) : incIf vals (vals ++ rest) = (true, rest) := by
  rw [incIf.eq_def]
  split
  · exact if_pos rfl
  · rw [if_pos ⟨by simp, List.take_left⟩, List.drop_left]

theorem incIf_of_not {vals pos : List Char} (h : ∀ rest, pos ≠ vals ++ rest) :
    incIf vals pos = (false, pos) := by
  rw [incIf.eq_def]
  split
  · split
    · rfl
    · rename_i val c rest
      refine if_neg ?_
      rintro rfl
      exact h rest rfl
  · refine if_neg ?_
    rintro ⟨-, htake⟩
    refine h (pos.drop vals.length) ?_
    conv_lhs => rw [← List.take_append_drop vals.length pos, htake]

/-! ## Expected characters -/

/-- The expected characters come next, and `rest` stands behind them. -/
inductive ComesNext (ignored : Char → Bool) : List Char → List Char → List Char → Prop where
  | nil (pos : List Char) : ComesNext ignored [] pos pos
  | skip {val c : Char} {vals pos rest : List Char} (hc : ignored c = true)
      (h : ComesNext ignored (val :: vals) pos rest) :
      ComesNext ignored (val :: vals) (c :: pos) rest
  | cons (val : Char) {vals pos rest : List Char} (h : ComesNext ignored vals pos rest) :
      ComesNext ignored (val :: vals) (val :: pos) rest

section ComesNext

variable {ignored : Char → Bool} {val c : Char} {vals pos rest : List Char}

theorem comesNext_append (ignored : Char → Bool) (vals rest : List Char) :
    ComesNext ignored vals (vals ++ rest) rest := by
  induction vals with
  | nil => exact .nil rest
  | cons val vals ih => exact .cons val ih

theorem ComesNext.eq_append (h : ComesNext ignored vals pos rest)
    (hpos : ∀ c ∈ pos, ignored c = false) : pos = vals ++ rest := by
  induction h with
  | nil => rfl
  | skip hc h ih =>
      rw [hpos _ List.mem_cons_self] at hc
      exact absurd hc Bool.false_ne_true
  | cons val h ih => rw [ih fun c hc => hpos c (List.mem_cons_of_mem _ hc), List.cons_append]

theorem comesNext_iff (hpos : ∀ c ∈ pos, ignored c = false) :
    ComesNext ignored vals pos rest ↔ pos = vals ++ rest := by
  constructor
  · exact fun h => h.eq_append hpos
  · rintro rfl
    exact comesNext_append ignored vals rest

theorem not_comesNext_nil : ¬ComesNext ignored (val :: vals) [] rest := by
  intro h
  cases h

theorem not_comesNext_cons (hc : ignored c = false) (hne : c ≠ val) :
    ¬ComesNext ignored (val :: vals) (c :: pos) rest := by
  intro h
  cases h with
  | skip hskip h =>
      rw [hc] at hskip
      exact Bool.false_ne_true hskip
  | cons val h => exact hne rfl

theorem not_comesNext_of_head (hhead : ∀ c ∈ pos.head?, ignored c = false ∧ c ≠ val) :
    ¬ComesNext ignored (val :: vals) pos rest := by
  cases pos with
  | nil => exact not_comesNext_nil
  | cons c pos =>
      obtain ⟨hc, hne⟩ := hhead c rfl
      exact not_comesNext_cons hc hne

end ComesNext

/-- The characters that the options ignore. -/
def Options.ignores (o : Options) (c : Char) : Bool := o.ignoreTabsOrNewlines && isTabOrNewline c

/-- What `safely_inc_if` has to do. -/
structure IncsRight (o : Options) (vals : List Char) (ctx : Ctx σ) : Prop where
  found_iff : (safelyIncIf o vals ctx).1 = true ↔ ∃ rest, ComesNext o.ignores vals ctx.pos rest
  behind : (safelyIncIf o vals ctx).1 = true →
    ComesNext o.ignores vals ctx.pos (safelyIncIf o vals ctx).2.pos
  unmoved : (safelyIncIf o vals ctx).1 = false → (safelyIncIf o vals ctx).2.pos = ctx.pos
  agrees : (∀ c ∈ ctx.pos, isTabOrNewline c = false) →
    ((safelyIncIf o vals ctx).1, (safelyIncIf o vals ctx).2.pos) = incIf vals ctx.pos

/-! ## The options that ignore nothing -/

section Strict

variable {o : Options} {vals : List Char} {ctx : Ctx σ}

theorem safelyIncIf_eq_incIf (ho : o.ignoreTabsOrNewlines = false) :
    ((safelyIncIf o vals ctx).1, (safelyIncIf o vals ctx).2.pos) = incIf vals ctx.pos := by
  rw [safelyIncIf, if_neg (by simp [ho])]
  by_cases hprefix : vals <+: ctx.pos
  · obtain ⟨rest, hrest⟩ := hprefix
    have htrue : vals.isPrefixOf ctx.pos = true :=
      List.isPrefixOf_iff_prefix.mpr ⟨rest, hrest⟩
    rw [if_pos htrue, ← hrest, incIf_append, List.drop_left]
  · have hnone : ∀ rest, ctx.pos ≠ vals ++ rest := fun rest heq => hprefix ⟨rest, heq.symm⟩
    rw [if_neg (mt List.isPrefixOf_iff_prefix.mp hprefix), incIf_of_not hnone]

theorem incsRight_of_incIf (hignores : ∀ c ∈ ctx.pos, o.ignores c = false)
    (heq : ((safelyIncIf o vals ctx).1, (safelyIncIf o vals ctx).2.pos) = incIf vals ctx.pos) :
    IncsRight o vals ctx := by
  by_cases hrest : ∃ rest, ctx.pos = vals ++ rest
  · obtain ⟨rest, hpos⟩ := hrest
    have hincIf : incIf vals ctx.pos = (true, rest) := by rw [hpos, incIf_append]
    rw [hincIf, Prod.mk.injEq] at heq
    have hnext : ComesNext o.ignores vals ctx.pos rest := (comesNext_iff hignores).mpr hpos
    refine ⟨iff_of_true heq.1 ⟨rest, hnext⟩, fun _ => by rwa [heq.2], fun hfalse => ?_, fun _ => ?_⟩
    · rw [heq.1] at hfalse
      exact absurd hfalse.symm Bool.false_ne_true
    · rw [heq.1, heq.2, hincIf]
  · have hnone : ∀ rest, ctx.pos ≠ vals ++ rest := fun rest hpos => hrest ⟨rest, hpos⟩
    have hnext : ¬∃ rest, ComesNext o.ignores vals ctx.pos rest := by
      rintro ⟨rest, h⟩
      exact hnone rest (h.eq_append hignores)
    have hincIf := incIf_of_not hnone
    have hpair := heq
    rw [hincIf, Prod.mk.injEq] at hpair
    refine ⟨iff_of_false (by simp [hpair.1]) hnext, fun htrue => ?_, fun _ => hpair.2, fun _ => heq⟩
    rw [hpair.1] at htrue
    exact absurd htrue Bool.false_ne_true

end Strict

/-! ## The loop -/

section Ignoring

variable {o : Options} {val c : Char} {vals pos rest : List Char} {ctx : Ctx σ}

theorem safelyIncIfLoop_of_comesNext (h : ComesNext isTabOrNewline vals pos rest)
    (hvals : ∀ val ∈ vals, isTabOrNewline val = false) (hrest : rest ≠ []) (ctx : Ctx σ) :
    (safelyIncIfLoop vals pos ctx).1 = true ∧ (safelyIncIfLoop vals pos ctx).2.pos = rest := by
  induction h generalizing ctx with
  | nil pos =>
      obtain ⟨c, pos, rfl⟩ := List.exists_cons_of_ne_nil hrest
      exact ⟨rfl, rfl⟩
  | skip hc h ih =>
      rw [safelyIncIfLoop, if_pos hc]
      exact ih hvals hrest _
  | cons val h ih =>
      have hval := hvals val List.mem_cons_self
      rw [safelyIncIfLoop, if_neg (by simp [hval]), if_neg (not_not.mpr rfl)]
      exact ih (fun val' hmem => hvals val' (List.mem_cons_of_mem _ hmem)) hrest _

theorem comesNext_of_safelyIncIfLoop (h : (safelyIncIfLoop vals pos ctx).1 = true) :
    ComesNext isTabOrNewline vals pos (safelyIncIfLoop vals pos ctx).2.pos ∧
      (safelyIncIfLoop vals pos ctx).2.pos ≠ [] ∧ ∀ val ∈ vals, isTabOrNewline val = false := by
  induction pos generalizing vals ctx with
  | nil =>
      rw [safelyIncIfLoop] at h
      exact absurd h Bool.false_ne_true
  | cons c pos ih =>
      cases vals with
      | nil => exact ⟨.nil _, List.cons_ne_nil c pos, List.forall_mem_nil _⟩
      | cons val vals =>
          rw [safelyIncIfLoop] at h ⊢
          split at h
          · rename_i hc
            rw [if_pos hc]
            obtain ⟨hnext, hrest, hvals⟩ := ih h
            exact ⟨.skip hc hnext, hrest, hvals⟩
          · rename_i hc
            rw [if_neg hc]
            split at h
            · exact absurd h Bool.false_ne_true
            · rename_i hval
              obtain rfl := not_not.mp hval
              obtain ⟨hnext, hrest, hvals⟩ := ih h
              rw [if_neg hval]
              exact ⟨.cons c hnext, hrest, List.forall_mem_cons.mpr ⟨by simpa using hc, hvals⟩⟩

theorem length_safelyIncIfLoop_le (vals pos : List Char) (ctx : Ctx σ) :
    (safelyIncIfLoop vals pos ctx).2.pos.length ≤ pos.length := by
  induction pos generalizing vals ctx with
  | nil => exact Nat.le_of_eq (by rw [safelyIncIfLoop])
  | cons c pos ih =>
      cases vals with
      | nil => exact Nat.le_refl _
      | cons val vals =>
          rw [safelyIncIfLoop]
          split
          · exact Nat.le_succ_of_le (ih _ _)
          · split
            · exact Nat.le_refl _
            · exact Nat.le_succ_of_le (ih _ _)

/-- The loop stands still at the end and before a character that is neither ignored nor the first
expected one, and nowhere else where it does not find them. -/
theorem safelyIncIfLoop_unmoved_iff (hfalse : (safelyIncIfLoop (val :: vals) pos ctx).1 = false) :
    (safelyIncIfLoop (val :: vals) pos ctx).2.pos = pos ↔
      ∀ c ∈ pos.head?, isTabOrNewline c = false ∧ c ≠ val := by
  cases pos with
  | nil => exact iff_of_true (by rw [safelyIncIfLoop]) (by simp)
  | cons c pos =>
      simp only [List.head?_cons, Option.mem_some_iff, forall_eq']
      have hshort : ∀ vals (ctx : Ctx σ), (safelyIncIfLoop vals pos ctx).2.pos ≠ c :: pos := by
        intro vals ctx heq
        have hle := length_safelyIncIfLoop_le vals pos ctx
        rw [heq, List.length_cons] at hle
        exact Nat.not_succ_le_self _ hle
      rw [safelyIncIfLoop]
      split
      · rename_i hc
        exact iff_of_false (hshort _ _) fun h => by simp [h.1] at hc
      · rename_i hc
        split
        · rename_i hne
          exact iff_of_true rfl ⟨by simpa using hc, hne⟩
        · rename_i heq
          exact iff_of_false (hshort _ _) fun h => heq h.2

/-- The expected characters come next with something behind them, or the text ends here, or its
next character is neither ignored nor the first of them. -/
def FoundInside (vals pos : List Char) : Prop :=
  (∃ rest, rest ≠ [] ∧ ComesNext isTabOrNewline vals pos rest ∧
      ∀ val ∈ vals, isTabOrNewline val = false) ∨
    ∃ val ∈ vals.head?, ∀ c ∈ pos.head?, isTabOrNewline c = false ∧ c ≠ val

theorem ignores_of_ignoreTabsOrNewlines (ho : o.ignoreTabsOrNewlines = true) :
    o.ignores = isTabOrNewline := by
  funext c
  rw [Options.ignores, ho, Bool.true_and]

theorem incsRight_of_comesNext (ho : o.ignoreTabsOrNewlines = true)
    (hvals : ∀ val ∈ vals, isTabOrNewline val = false) (hrest : rest ≠ [])
    (hnext : ComesNext isTabOrNewline vals ctx.pos rest) : IncsRight o vals ctx := by
  have hignores := ignores_of_ignoreTabsOrNewlines ho
  have hloop : safelyIncIf o vals ctx = safelyIncIfLoop vals ctx.pos ctx := if_pos ho
  obtain ⟨hfound, hpos⟩ := safelyIncIfLoop_of_comesNext hnext hvals hrest ctx
  rw [← hloop] at hfound hpos
  refine ⟨iff_of_true hfound ⟨rest, by rwa [hignores]⟩, fun _ => by rwa [hpos, hignores],
    fun hfalse => ?_, fun hun => ?_⟩
  · rw [hfound] at hfalse
    exact absurd hfalse.symm Bool.false_ne_true
  · rw [hfound, hpos, hnext.eq_append hun, incIf_append]

theorem incsRight_of_head (ho : o.ignoreTabsOrNewlines = true)
    (hhead : ∀ c ∈ ctx.pos.head?, isTabOrNewline c = false ∧ c ≠ val) :
    IncsRight o (val :: vals) ctx := by
  have hignores := ignores_of_ignoreTabsOrNewlines ho
  have hloop : safelyIncIf o (val :: vals) ctx = safelyIncIfLoop (val :: vals) ctx.pos ctx :=
    if_pos ho
  have hnone : ∀ rest, ¬ComesNext isTabOrNewline (val :: vals) ctx.pos rest :=
    fun _ => not_comesNext_of_head hhead
  have hfalse : (safelyIncIfLoop (val :: vals) ctx.pos ctx).1 = false :=
    Bool.eq_false_iff.mpr fun hfound => hnone _ (comesNext_of_safelyIncIfLoop hfound).1
  have hpos := (safelyIncIfLoop_unmoved_iff hfalse).mpr hhead
  rw [← hloop] at hfalse hpos
  refine ⟨iff_of_false (by simp [hfalse]) ?_, fun hfound => ?_, fun _ => hpos, fun hun => ?_⟩
  · rintro ⟨rest, hnext⟩
    rw [hignores] at hnext
    exact hnone rest hnext
  · rw [hfalse] at hfound
    exact absurd hfound Bool.false_ne_true
  · rw [hfalse, hpos, incIf_of_not]
    rintro rest heq
    refine hnone rest ?_
    rw [heq]
    exact comesNext_append _ _ _

theorem incsRight_iff_foundInside (ho : o.ignoreTabsOrNewlines = true) :
    IncsRight o vals ctx ↔ FoundInside vals ctx.pos := by
  have hloop : safelyIncIf o vals ctx = safelyIncIfLoop vals ctx.pos ctx := if_pos ho
  constructor
  · intro h
    cases hfound : (safelyIncIfLoop vals ctx.pos ctx).1 with
    | true =>
        obtain ⟨hnext, hrest, hvals⟩ := comesNext_of_safelyIncIfLoop hfound
        exact .inl ⟨_, hrest, hnext, hvals⟩
    | false =>
        have hunmoved := h.unmoved
        have hiff := h.found_iff
        rw [hloop] at hunmoved hiff
        cases vals with
        | nil => exact absurd (hiff.mpr ⟨_, .nil _⟩) (by simp [hfound])
        | cons val vals =>
            exact .inr ⟨val, rfl, (safelyIncIfLoop_unmoved_iff hfound).mp (hunmoved hfound)⟩
  · rintro (⟨rest, hrest, hnext, hvals⟩ | ⟨val, hval, hhead⟩)
    · exact incsRight_of_comesNext ho hvals hrest hnext
    · obtain ⟨vals, rfl⟩ : ∃ vals', vals = val :: vals' := List.head?_eq_some_iff.mp hval
      exact incsRight_of_head ho hhead

end Ignoring

/-- The options that ignore nothing find the expected characters wherever they come next; the
others find them inside of the text. -/
theorem incsRight_iff (o : Options) (vals : List Char) (ctx : Ctx σ) :
    IncsRight o vals ctx ↔ o.ignoreTabsOrNewlines = false ∨ FoundInside vals ctx.pos := by
  cases ho : o.ignoreTabsOrNewlines with
  | true => rw [incsRight_iff_foundInside ho, or_iff_right (by decide)]
  | false =>
      have hignores : ∀ c ∈ ctx.pos, o.ignores c = false := fun c _ => by rw [Options.ignores, ho]; rfl
      exact iff_of_true (incsRight_of_incIf hignores (safelyIncIf_eq_incIf ho)) (.inl rfl)

/-- The slashes of `http://` are not found at the end. -/
theorem not_incsRight : ¬∀ (o : Options) (vals : List Char) (ctx : Ctx Unit), IncsRight o vals ctx := by
  intro h
  have hright := h standardUriParsingOptions ['/', '/'] ⟨[], ['/', '/'], (), .start, .notSpecial⟩
  have hfound := hright.found_iff.mpr ⟨[], comesNext_append _ ['/', '/'] []⟩
  revert hfound
  decide

end Webpp.Uri
