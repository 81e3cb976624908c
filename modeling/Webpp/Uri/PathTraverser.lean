import Mathlib.Data.List.Induction
import Webpp.Uri.Path

/-!
# The path traverser

A path traverser parses a text to the segments of a path, each one a piece of the text, and
normalises them: empty segments and dot segments are removed.
-/

namespace Webpp.Uri

open Loop

/-- `basic_path::parse` into an empty path. A vector of segments counts as one that cannot be
modified, so nothing is encoded or decoded. -/
def basicPath (str : List Char) : Run (List (List Char)) := do
  let ctx ← parsePath standardUriParsingOptions segregatedViewOutput
    ⟨str, str, ⟨fun _ => [], fun _ => [], []⟩, ⟨.unparsed, ∅⟩, .specialScheme⟩
  pure (ctx.out.segments .path)

def currentDir : List Char := ['.']

def parentDir : List Char := ['.', '.']

def isAbsolute (path : List (List Char)) : Bool := path.head? == some []

/-- One round of the loop of `remove_dot_segments`, on the segments before the position and
the ones from there. The loop ends where a segment and its parent segment are removed from the
beginning. -/
def removeDotsStep (removeLeading removeEmptySegments : Bool) :
    List (List Char) × List (List Char) →
      Flow (List (List Char) × List (List Char)) (List (List Char))
  | (passed, []) => .done passed
  | (passed, seg :: rest) =>
      if removeEmptySegments && seg.isEmpty then .next (passed, rest)
      else if seg == currentDir then .next (passed, rest)
      else if seg == parentDir then
        match passed.getLast? with
        | some last =>
            if last.isEmpty then .next (passed, rest)
            else if last != parentDir then
              match passed.dropLast.getLast? with
              | none => .done rest
              | some before => .next (passed.dropLast.dropLast, before :: rest)
            else .next (passed ++ [seg], rest)
        | none =>
            if removeLeading then .next (passed, rest) else .next (passed ++ [seg], rest)
      else .next (passed ++ [seg], rest)

def removeDotSegments (removeLeading removeEmptySegments : Bool) (path : List (List Char)) :
    Run (List (List Char)) :=
  loop (fun s => .ok (removeDotsStep removeLeading removeEmptySegments s)) .diverges
    (3 * path.length + 1) ([], path)

def normalize (removeEmptySegments : Bool) (path : List (List Char)) : Run (List (List Char)) :=
  removeDotSegments (isAbsolute path) removeEmptySegments path

/-- The path that a `path_traverser` goes through. -/
def pathTraverser (str : List Char) : Run (List (List Char)) := do
  let path ← basicPath str
  normalize true path

example : pathTraverser "/%2e/admin".toList = .ok ["admin".toList] := by rfl

/-!
## Cancelling dot segments

What `remove_dot_segments` is for, with leading parent segments removed: each `..` cancels the
nearest normal segment before it that is still there. The loop differs in two places. It leaves
the path as it is once a `..` has cancelled the first segment, and a `..` behind an empty segment
cancels nothing.
-/

/-- A segment that may be left over. -/
def IsSurvivor (removeEmptySegments : Bool) (seg : List Char) : Prop :=
  seg ≠ currentDir ∧ seg ≠ parentDir ∧ (removeEmptySegments = true → seg ≠ [])

instance (removeEmptySegments : Bool) : DecidablePred (IsSurvivor removeEmptySegments) :=
  fun _ => inferInstanceAs (Decidable (_ ∧ _ ∧ _))

/-- One segment, on the surviving segments before it, the nearest one first. -/
def cancelDots (removeEmptySegments : Bool) (survivors : List (List Char)) (seg : List Char) :
    List (List Char) :=
  if seg = parentDir then survivors.eraseP (· ≠ [])
  else if IsSurvivor removeEmptySegments seg then seg :: survivors
  else survivors

/-- The surviving segments of a path, the last one first. -/
def survivors (removeEmptySegments : Bool) (path : List (List Char)) : List (List Char) :=
  path.foldl (cancelDots removeEmptySegments) []

/-- The segments are those that survive, in their order; none of them is a dot segment, or an
empty one where these are removed; and they stay as they are. -/
structure CancelsDots (removeEmptySegments : Bool) (path : List (List Char)) : Prop where
  result : removeDotSegments true removeEmptySegments path =
    .ok (survivors removeEmptySegments path).reverse
  clean : ∀ seg ∈ (survivors removeEmptySegments path).reverse, IsSurvivor removeEmptySegments seg
  idempotent : removeDotSegments true removeEmptySegments
    (survivors removeEmptySegments path).reverse =
      .ok (survivors removeEmptySegments path).reverse

/-- A `..` that the source handles right. Where it finds an empty segment before it, there is no
normal one left; and where it cancels the only segment left, nothing behind it is to be removed. -/
structure DotsInReach (removeEmptySegments : Bool) (before after : List (List Char)) : Prop where
  empty : ∀ rest, before = [] :: rest → ∀ seg ∈ rest, seg = []
  first : ∀ seg, before = [seg] → seg ≠ [] → ∀ seg ∈ after, IsSurvivor removeEmptySegments seg

section Survivors

variable {removeEmptySegments : Bool} {before : List (List Char)} {seg : List Char}

theorem cancelDots_parentDir (before : List (List Char)) :
    cancelDots removeEmptySegments before parentDir = before.eraseP (· ≠ []) := if_pos rfl

theorem cancelDots_survivor (h : IsSurvivor removeEmptySegments seg) :
    cancelDots removeEmptySegments before seg = seg :: before := by
  rw [cancelDots, if_neg h.2.1, if_pos h]

theorem cancelDots_removed (hparent : seg ≠ parentDir) (h : ¬ IsSurvivor removeEmptySegments seg) :
    cancelDots removeEmptySegments before seg = before := by
  rw [cancelDots, if_neg hparent, if_neg h]

theorem cancelDots_clean (h : ∀ seg ∈ before, IsSurvivor removeEmptySegments seg)
    (seg : List Char) :
    ∀ seg' ∈ cancelDots removeEmptySegments before seg, IsSurvivor removeEmptySegments seg' := by
  rw [cancelDots]
  split_ifs with hparent hseg
  · exact fun seg' hmem => h seg' (List.mem_of_mem_eraseP hmem)
  · exact List.forall_mem_cons.mpr ⟨hseg, h⟩
  · exact h

theorem foldl_cancelDots_clean (path : List (List Char))
    (h : ∀ seg ∈ before, IsSurvivor removeEmptySegments seg) :
    ∀ seg ∈ path.foldl (cancelDots removeEmptySegments) before,
      IsSurvivor removeEmptySegments seg := by
  induction path generalizing before with
  | nil => exact h
  | cons seg path ih => exact ih (cancelDots_clean h seg)

theorem foldl_cancelDots_of_clean {path : List (List Char)}
    (h : ∀ seg ∈ path, IsSurvivor removeEmptySegments seg) (before : List (List Char)) :
    path.foldl (cancelDots removeEmptySegments) before = path.reverse ++ before := by
  induction path generalizing before with
  | nil => rfl
  | cons seg path ih =>
      rw [List.foldl_cons, cancelDots_survivor (h seg List.mem_cons_self),
        ih fun seg' hseg' => h seg' (List.mem_cons_of_mem seg hseg'), List.reverse_cons,
        List.append_assoc, List.singleton_append]

end Survivors

/-! ## Rounds of the loop -/

section Rounds

variable {removeEmptySegments : Bool} {before rest : List (List Char)} {seg : List Char}

/-- The body of the loop, with leading parent segments removed. -/
def dotsRound (removeEmptySegments : Bool) (s : List (List Char) × List (List Char)) :
    Run (Flow (List (List Char) × List (List Char)) (List (List Char))) :=
  .ok (removeDotsStep true removeEmptySegments s)

/-- What bounds the rounds that are left. -/
def dotsLeft (s : List (List Char) × List (List Char)) : ℕ := 2 * s.1.length + 3 * s.2.length

/-- Rounds that come from the survivors before a segment to those behind it. -/
abbrev DotsLead (removeEmptySegments : Bool) (before rest before' rest' : List (List Char)) :
    Prop :=
  LeadsTo (dotsRound removeEmptySegments) .diverges dotsLeft (before.reverse, rest)
    (before'.reverse, rest')

theorem dotsLead_survivor (h : IsSurvivor removeEmptySegments seg) :
    DotsLead removeEmptySegments before (seg :: rest) (seg :: before) rest := by
  refine leadsTo_of_next ?_ ?_
  · have hempty : ¬ (removeEmptySegments && seg.isEmpty) = true := by
      rw [Bool.and_eq_true, List.isEmpty_iff]
      exact fun hremoved => h.2.2 hremoved.1 hremoved.2
    rw [dotsRound, removeDotsStep, if_neg hempty, if_neg (by simp [h.1]), if_neg (by simp [h.2.1]),
      List.reverse_cons]
  · simp [dotsLeft]
    omega

theorem dotsLead_removed (hparent : seg ≠ parentDir) (h : ¬ IsSurvivor removeEmptySegments seg) :
    DotsLead removeEmptySegments before (seg :: rest) before rest := by
  refine leadsTo_of_next ?_ ?_
  · rw [dotsRound, removeDotsStep]
    by_cases hempty : (removeEmptySegments && seg.isEmpty) = true
    · rw [if_pos hempty]
    · rw [if_neg hempty]
      by_cases hcurrent : seg = currentDir
      · rw [if_pos (by simp [hcurrent])]
      · rw [Bool.and_eq_true, List.isEmpty_iff] at hempty
        exact (h ⟨hcurrent, hparent, fun hremoved hnil => hempty ⟨hremoved, hnil⟩⟩).elim
  · simp [dotsLeft]

theorem removesNoParent : ¬ (removeEmptySegments && parentDir.isEmpty) = true := by
  rw [Bool.and_eq_true]
  exact fun h => nomatch h.2

theorem dotsRound_leading :
    dotsRound removeEmptySegments ([], parentDir :: rest) = .ok (.next ([], rest)) := by
  rw [dotsRound, removeDotsStep, if_neg removesNoParent, if_neg (by decide), if_pos (by decide)]
  rfl

theorem dotsRound_empty (before rest : List (List Char)) :
    dotsRound removeEmptySegments (([] :: before).reverse, parentDir :: rest) =
      .ok (.next (([] :: before).reverse, rest)) := by
  rw [dotsRound, removeDotsStep, if_neg removesNoParent, if_neg (by decide), if_pos (by decide),
    List.getLast?_reverse]
  rfl

theorem dotsRound_first (hempty : seg ≠ []) (hparent : seg ≠ parentDir) :
    dotsRound removeEmptySegments ([seg], parentDir :: rest) = .ok (.done rest) := by
  have hisEmpty : ¬ seg.isEmpty = true := fun h => hempty (List.isEmpty_iff.mp h)
  rw [dotsRound, removeDotsStep, if_neg removesNoParent, if_neg (by decide), if_pos (by decide)]
  exact congrArg Except.ok ((if_neg hisEmpty).trans (if_pos (bne_iff_ne.mpr hparent)))

theorem dotsRound_back (hempty : seg ≠ []) (hparent : seg ≠ parentDir) (prev : List Char) :
    dotsRound removeEmptySegments ((seg :: prev :: before).reverse, parentDir :: rest) =
      .ok (.next (before.reverse, prev :: rest)) := by
  have hisEmpty : ¬ seg.isEmpty = true := fun h => hempty (List.isEmpty_iff.mp h)
  rw [dotsRound, removeDotsStep, if_neg removesNoParent, if_neg (by decide), if_pos (by decide),
    List.getLast?_reverse, List.dropLast_reverse, List.tail_cons, List.getLast?_reverse,
    List.dropLast_reverse, List.tail_cons]
  exact congrArg Except.ok ((if_neg hisEmpty).trans (if_pos (bne_iff_ne.mpr hparent)))

/-- A leading `..` is removed, and one behind an empty segment. -/
theorem dotsLead_kept (hbefore : before = [] ∨ ∃ before', before = [] :: before') :
    DotsLead removeEmptySegments before (parentDir :: rest) before rest := by
  refine leadsTo_of_next ?_ ?_
  · rcases hbefore with rfl | ⟨before', rfl⟩
    · exact dotsRound_leading
    · exact dotsRound_empty before' rest
  · simp [dotsLeft]

/-- A `..` removes the segment before it, and the one before that is looked at again. -/
theorem dotsLead_back {prev : List Char} (hempty : seg ≠ [])
    (hseg : IsSurvivor removeEmptySegments seg) (hprev : IsSurvivor removeEmptySegments prev) :
    DotsLead removeEmptySegments (seg :: prev :: before) (parentDir :: rest) (prev :: before)
      rest := by
  refine LeadsTo.trans ?_ (dotsLead_survivor hprev)
  refine leadsTo_of_next (dotsRound_back hempty hseg.2.1 prev) ?_
  simp [dotsLeft]

theorem dotsEnd_first (hempty : seg ≠ []) (hparent : seg ≠ parentDir) :
    EndsWith (dotsRound removeEmptySegments) .diverges dotsLeft ([seg], parentDir :: rest)
      (.ok rest) := endsWith_of_done (dotsRound_first hempty hparent)

theorem dotsEnd_nil :
    EndsWith (dotsRound removeEmptySegments) .diverges dotsLeft (before.reverse, [])
      (.ok before.reverse) := endsWith_of_done rfl

end Rounds

/-! ## Behind an empty segment -/

section Blocked

variable {removeEmptySegments : Bool}

/-- Once a `..` behind an empty segment has cancelled nothing, more segments are left than
survive. What has come behind the empty segment is `shared`. -/
theorem dotsEnd_blocked (rest shared blocked stack : List (List Char))
    (hshared : ∀ seg ∈ shared ++ [] :: blocked, IsSurvivor removeEmptySegments seg)
    (hlength : stack.length < blocked.length + 1) :
    ∃ r, EndsWith (dotsRound removeEmptySegments) .diverges dotsLeft
        ((shared ++ [] :: blocked).reverse, rest) (.ok r) ∧
      (rest.foldl (cancelDots removeEmptySegments) (shared ++ stack)).length < r.length := by
  induction rest generalizing shared blocked stack with
  | nil =>
      refine ⟨_, dotsEnd_nil, ?_⟩
      simp
      omega
  | cons seg rest ih =>
      rw [List.foldl_cons]
      by_cases hparent : seg = parentDir
      · subst hparent
        rw [cancelDots_parentDir]
        cases shared with
        | nil =>
            have herase := List.length_eraseP_le (p := (· ≠ [])) (l := stack)
            obtain ⟨r, hends, hr⟩ := ih [] blocked (stack.eraseP (· ≠ [])) hshared
              (Nat.lt_of_le_of_lt herase hlength)
            exact ⟨r, (dotsLead_kept (.inr ⟨blocked, rfl⟩)).ends hends, hr⟩
        | cons last shared =>
            by_cases hempty : last = []
            · -- the empty segments block more now, and all that survives is taken to be open
              subst hempty
              have herase := List.length_eraseP_le (p := (· ≠ [])) (l := [] :: shared ++ stack)
              rw [List.length_append, List.length_cons] at herase
              obtain ⟨r, hends, hr⟩ := ih [] (shared ++ [] :: blocked)
                (([] :: shared ++ stack).eraseP (· ≠ [])) hshared (by
                  rw [List.length_append, List.length_cons]
                  omega)
              exact ⟨r, (dotsLead_kept (.inr ⟨shared ++ [] :: blocked, rfl⟩)).ends hends, hr⟩
            · rw [List.cons_append, List.forall_mem_cons] at hshared
              obtain ⟨hlast, hrest⟩ := hshared
              obtain ⟨prev, before, hbefore⟩ := List.exists_cons_of_ne_nil
                (List.append_ne_nil_of_right_ne_nil shared (List.cons_ne_nil [] blocked))
              have hprev : IsSurvivor removeEmptySegments prev :=
                hrest prev (by rw [hbefore]; exact List.mem_cons_self)
              obtain ⟨r, hends, hr⟩ := ih shared blocked stack hrest hlength
              have herase : (last :: shared ++ stack).eraseP (· ≠ []) = shared ++ stack :=
                List.eraseP_cons_of_pos (decide_eq_true hempty)
              rw [herase]
              refine ⟨r, ?_, hr⟩
              rw [hbefore] at hends
              rw [List.cons_append, hbefore]
              exact (dotsLead_back hempty hlast hprev).ends hends
      · by_cases hseg : IsSurvivor removeEmptySegments seg
        · rw [cancelDots_survivor hseg]
          obtain ⟨r, hends, hr⟩ := ih (seg :: shared) blocked stack
            (List.forall_mem_cons.mpr ⟨hseg, hshared⟩) hlength
          exact ⟨r, (dotsLead_survivor hseg).ends hends, hr⟩
        · rw [cancelDots_removed hparent hseg]
          obtain ⟨r, hends, hr⟩ := ih shared blocked stack hshared hlength
          exact ⟨r, (dotsLead_removed hparent hseg).ends hends, hr⟩

end Blocked

/-! ## The whole loop -/

section Whole

variable (removeEmptySegments : Bool)

/-- Each `..` of the rest is in reach, from the survivors before it. -/
def AllInReach (before rest : List (List Char)) : Prop :=
  ∀ pre post, rest = pre ++ parentDir :: post →
    DotsInReach removeEmptySegments (pre.foldl (cancelDots removeEmptySegments) before) post

variable {removeEmptySegments}

theorem allInReach_cons (before : List (List Char)) (seg : List Char) (rest : List (List Char)) :
    AllInReach removeEmptySegments before (seg :: rest) ↔
      (seg = parentDir → DotsInReach removeEmptySegments before rest) ∧
        AllInReach removeEmptySegments (cancelDots removeEmptySegments before seg) rest := by
  constructor
  · intro h
    refine ⟨?_, fun pre post hrest => h (seg :: pre) post (by rw [hrest, List.cons_append])⟩
    rintro rfl
    exact h [] rest rfl
  · rintro ⟨hseg, hrest⟩ pre post hsplit
    cases pre with
    | nil =>
        cases hsplit
        exact hseg rfl
    | cons seg' pre =>
        rw [List.cons_append, List.cons.injEq] at hsplit
        obtain ⟨rfl, hsplit⟩ := hsplit
        exact hrest pre post hsplit

/-- A `..` that cancels the only segment left: the rest stays as it is. -/
theorem dotsEnd_first_iff {seg : List Char} {rest : List (List Char)} (hempty : seg ≠ [])
    (hseg : IsSurvivor removeEmptySegments seg) :
    ∃ r, EndsWith (dotsRound removeEmptySegments) .diverges dotsLeft
        ([seg].reverse, parentDir :: rest) (.ok r) ∧
      (r = (rest.foldl (cancelDots removeEmptySegments) []).reverse ↔
        DotsInReach removeEmptySegments [seg] rest ∧ AllInReach removeEmptySegments [] rest) := by
  refine ⟨rest, dotsEnd_first hempty hseg.2.1, ?_⟩
  constructor
  · intro heq
    have hclean : ∀ seg ∈ rest, IsSurvivor removeEmptySegments seg := by
      intro seg hmem
      rw [heq, List.mem_reverse] at hmem
      exact foldl_cancelDots_clean rest (fun _ h => absurd h List.not_mem_nil) seg hmem
    refine ⟨⟨fun _ h => (hempty (List.cons.inj h).1).elim, fun _ _ _ => hclean⟩, ?_⟩
    rintro pre post rfl
    exact ((hclean parentDir (by simp)).2.1 rfl).elim
  · rintro ⟨hreach, -⟩
    rw [foldl_cancelDots_of_clean (hreach.first seg rfl hempty), List.append_nil,
      List.reverse_reverse]

/-- A `..` behind an empty segment. -/
theorem dotsEnd_empty_iff {before rest : List (List Char)}
    (hbefore : ∀ seg ∈ [] :: before, IsSurvivor removeEmptySegments seg)
    (ih : ∀ before, (∀ seg ∈ before, IsSurvivor removeEmptySegments seg) →
      ∃ r, EndsWith (dotsRound removeEmptySegments) .diverges dotsLeft (before.reverse, rest)
          (.ok r) ∧
        (r = (rest.foldl (cancelDots removeEmptySegments) before).reverse ↔
          AllInReach removeEmptySegments before rest)) :
    ∃ r, EndsWith (dotsRound removeEmptySegments) .diverges dotsLeft
        (([] :: before).reverse, parentDir :: rest) (.ok r) ∧
      (r = (rest.foldl (cancelDots removeEmptySegments)
          (([] :: before).eraseP (· ≠ []))).reverse ↔
        DotsInReach removeEmptySegments ([] :: before) rest ∧
          AllInReach removeEmptySegments (([] :: before).eraseP (· ≠ [])) rest) := by
  by_cases hall : ∀ seg ∈ before, seg = []
  · have herase : ([] :: before).eraseP (· ≠ []) = [] :: before := by
      refine List.eraseP_of_forall_not fun seg hmem => ?_
      rcases List.mem_cons.mp hmem with rfl | hmem
      · decide
      · rw [hall seg hmem]
        decide
    have hreach : DotsInReach removeEmptySegments ([] :: before) rest := by
      refine ⟨fun _ h => ?_, fun _ h hne => (hne (List.cons.inj h).1.symm).elim⟩
      rw [← (List.cons.inj h).2]
      exact hall
    obtain ⟨r, hends, hr⟩ := ih _ hbefore
    rw [herase, and_iff_right hreach]
    exact ⟨r, (dotsLead_kept (.inr ⟨before, rfl⟩)).ends hends, hr⟩
  · obtain ⟨seg, hall⟩ := not_forall.mp hall
    obtain ⟨hmem, hne⟩ := Classical.not_imp.mp hall
    have herase : (([] :: before).eraseP (· ≠ [])).length = before.length :=
      List.length_eraseP_of_mem (List.mem_cons_of_mem [] hmem) (decide_eq_true hne)
    obtain ⟨r, hends, hr⟩ := dotsEnd_blocked rest [] before
      (([] :: before).eraseP (· ≠ [])) hbefore (by omega)
    refine ⟨r, (dotsLead_kept (.inr ⟨before, rfl⟩)).ends hends, iff_of_false ?_ ?_⟩
    · rintro rfl
      rw [List.nil_append, List.length_reverse] at hr
      exact Nat.lt_irrefl _ hr
    · exact fun h => hne (h.1.empty before rfl seg hmem)

/-- What a `..` has before it: nothing, an empty segment, one segment, or more. -/
theorem dotsEnd_iff (removeEmptySegments : Bool) (rest before : List (List Char))
    (hbefore : ∀ seg ∈ before, IsSurvivor removeEmptySegments seg) :
    ∃ r, EndsWith (dotsRound removeEmptySegments) .diverges dotsLeft (before.reverse, rest)
        (.ok r) ∧
      (r = (rest.foldl (cancelDots removeEmptySegments) before).reverse ↔
        AllInReach removeEmptySegments before rest) := by
  induction rest generalizing before with
  | nil =>
      refine ⟨_, dotsEnd_nil, iff_of_true rfl fun pre post h => ?_⟩
      exact absurd h.symm (by simp)
  | cons seg rest ih =>
      rw [allInReach_cons, List.foldl_cons]
      by_cases hparent : seg = parentDir
      · subst hparent
        rw [cancelDots_parentDir, and_congr_left' (forall_prop_of_true rfl)]
        cases before with
        | nil =>
            obtain ⟨r, hends, hr⟩ := ih [] hbefore
            have hreach : DotsInReach removeEmptySegments [] rest :=
              ⟨fun _ h => absurd h.symm (List.cons_ne_nil _ _),
                fun _ h => absurd h.symm (List.cons_ne_nil _ _)⟩
            rw [and_iff_right hreach]
            exact ⟨r, (dotsLead_kept (.inl rfl)).ends hends, hr⟩
        | cons last before =>
            obtain ⟨hlast, htail⟩ := List.forall_mem_cons.mp hbefore
            by_cases hempty : last = []
            · subst hempty
              exact dotsEnd_empty_iff hbefore ih
            · have herase : (last :: before).eraseP (· ≠ []) = before :=
                List.eraseP_cons_of_pos (decide_eq_true hempty)
              rw [herase]
              cases before with
              | nil => exact dotsEnd_first_iff hempty hlast
              | cons prev before =>
                  obtain ⟨r, hends, hr⟩ := ih (prev :: before) htail
                  have hreach : DotsInReach removeEmptySegments (last :: prev :: before) rest :=
                    ⟨fun _ h => (hempty (List.cons.inj h).1).elim, fun _ h => (nomatch h)⟩
                  rw [and_iff_right hreach]
                  refine ⟨r, (dotsLead_back hempty hlast ?_).ends hends, hr⟩
                  exact htail prev List.mem_cons_self
      · rw [and_iff_right fun h => absurd h hparent]
        obtain ⟨r, hends, hr⟩ := ih _ (cancelDots_clean hbefore seg)
        refine ⟨r, ?_, hr⟩
        by_cases hseg : IsSurvivor removeEmptySegments seg
        · rw [cancelDots_survivor hseg] at hends
          exact (dotsLead_survivor hseg).ends hends
        · rw [cancelDots_removed hparent hseg] at hends
          exact (dotsLead_removed hparent hseg).ends hends

end Whole

/-- The path is left as it should be where each `..` is in reach. -/
theorem cancelsDots_iff (removeEmptySegments : Bool) (path : List (List Char)) :
    CancelsDots removeEmptySegments path ↔ AllInReach removeEmptySegments [] path := by
  have hrun : ∀ path, ∃ r, removeDotSegments true removeEmptySegments path = .ok r ∧
      (r = (survivors removeEmptySegments path).reverse ↔
        AllInReach removeEmptySegments [] path) := by
    intro path
    obtain ⟨r, hends, hr⟩ := dotsEnd_iff removeEmptySegments path []
      (fun _ h => absurd h List.not_mem_nil)
    refine ⟨r, hends _ ?_, hr⟩
    simp [dotsLeft]
  have hclean : ∀ seg ∈ (survivors removeEmptySegments path).reverse,
      IsSurvivor removeEmptySegments seg := by
    intro seg hmem
    exact foldl_cancelDots_clean path (fun _ h => absurd h List.not_mem_nil) seg
      (List.mem_reverse.mp hmem)
  obtain ⟨r, hok, hr⟩ := hrun path
  constructor
  · intro h
    have heq := hok.symm.trans h.result
    exact hr.mp (Except.ok.inj heq)
  · intro h
    refine ⟨by rw [hok, hr.mpr h], hclean, ?_⟩
    obtain ⟨r', hok', hr'⟩ := hrun (survivors removeEmptySegments path).reverse
    have hsame : survivors removeEmptySegments (survivors removeEmptySegments path).reverse =
        survivors removeEmptySegments path := by
      refine (foldl_cancelDots_of_clean hclean []).trans ?_
      rw [List.append_nil, List.reverse_reverse]
    rw [hok', hr'.mpr ?_, hsame]
    rintro pre post hsplit
    refine ((hclean parentDir ?_).2.1 rfl).elim
    rw [hsplit]
    simp

/-- Behind `a/..` a `.` stays. -/
theorem not_cancelsDots_first :
    ¬ ∀ (removeEmptySegments : Bool) (path : List (List Char)),
      CancelsDots removeEmptySegments path := by
  intro h
  have hresult := (h true [['a'], parentDir, currentDir, ['b']]).result
  revert hresult
  decide

end Webpp.Uri
