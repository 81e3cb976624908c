import Webpp.Uri.Context
import Webpp.Uri.Encoding

/-!
# Comparing a path with a text

`basic_path::operator==` takes the segments off the text one by one, each with the character
behind it. It does not look at that character, there is none behind the last segment, and it does
not ask whether the text is at its end.
-/

namespace Webpp.Uri

/-- `str.remove_prefix(count)`. -/
def removePrefix (str : List Char) (count : ℕ) : Run (List Char) := advance str count

/-- `operator==`. -/
def pathEquals : List (List Char) → List Char → Run Bool
  | [], _ => .ok true
  | piece :: storage, str =>
      if piece.isPrefixOf str then do
        let str ← removePrefix str (piece.length + 1)
        pathEquals storage str
      else .ok false

/-- The segments joined by slashes, as `get_path` joins them. -/
def joinSegments (storage : List (List Char)) : List Char := ['/'].intercalate storage

/-- The comparison has a result, and that is whether the text is that of the segments. -/
def ComparesRight (storage : List (List Char)) (str : List Char) : Prop :=
  pathEquals storage str = .ok (decide (str = joinSegments storage))

/-- The segments, each one with some one character behind it. -/
def separated (storage : List (List Char)) (separators : List Char) : List Char :=
  (List.zipWith (fun piece c => piece ++ [c]) storage separators).flatten

/-- A segment is not in its place: behind the ones before it, each with one character behind it,
the text goes on otherwise. -/
def Misplaced (storage : List (List Char)) (str : List Char) : Prop :=
  ∃ before piece after separators rest, storage = before ++ piece :: after ∧
    separators.length = before.length ∧ str = separated before separators ++ rest ∧
    ¬ piece <+: rest

theorem misplaced_nil (str : List Char) : ¬ Misplaced [] str := by
  rintro ⟨before, piece, after, separators, rest, hstorage, -⟩
  exact absurd hstorage (by simp)

section Cons

variable {piece : List Char} {storage : List (List Char)}

theorem misplaced_of_mismatch {str : List Char} (h : ¬ piece <+: str) :
    Misplaced (piece :: storage) str := ⟨[], piece, storage, [], str, rfl, rfl, rfl, h⟩

theorem separated_cons (before : List (List Char)) (c : Char) (separators : List Char) :
    separated (piece :: before) (c :: separators) = piece ++ c :: separated before separators := by
  rw [separated, List.zipWith_cons_cons, List.flatten_cons, List.append_assoc,
    List.singleton_append]
  rfl

theorem Misplaced.tail {str : List Char} (h : Misplaced (piece :: storage) str)
    (hpiece : piece <+: str) :
    ∃ c rest, str = piece ++ c :: rest ∧ Misplaced storage rest := by
  obtain ⟨before, piece', after, separators, rest, hstorage, hlength, rfl, hrest⟩ := h
  cases before with
  | nil =>
      cases separators with
      | nil =>
          cases hstorage
          exact (hrest hpiece).elim
      | cons c separators => cases hlength
  | cons first before =>
      cases separators with
      | nil => cases hlength
      | cons c separators =>
          cases hstorage
          refine ⟨c, separated before separators ++ rest, ?_, before, piece', after, separators,
            rest, rfl, Nat.succ.inj hlength, rfl, hrest⟩
          rw [separated_cons, List.append_assoc, List.cons_append]

theorem misplaced_cons (c : Char) (str : List Char) :
    Misplaced (piece :: storage) (piece ++ c :: str) ↔ Misplaced storage str := by
  constructor
  · intro h
    obtain ⟨c', rest, heq, hrest⟩ := h.tail (List.prefix_append piece (c :: str))
    rw [List.append_cancel_left_eq, List.cons.injEq] at heq
    rw [heq.2]
    exact hrest
  · rintro ⟨before, piece', after, separators, rest, rfl, hlength, rfl, hrest⟩
    refine ⟨piece :: before, piece', after, c :: separators, rest, rfl,
      congrArg Nat.succ hlength, ?_, hrest⟩
    rw [separated_cons, List.append_assoc, List.cons_append]

theorem not_misplaced_self : ¬ Misplaced (piece :: storage) piece := by
  intro h
  obtain ⟨c, rest, heq, -⟩ := h.tail List.prefix_rfl
  have hlength := congrArg List.length heq
  rw [List.length_append, List.length_cons] at hlength
  omega

end Cons

/-! ## The comparison -/

section Equals

variable {piece : List Char} {storage : List (List Char)} {str : List Char}

theorem pathEquals_of_mismatch (h : ¬ piece <+: str) :
    pathEquals (piece :: storage) str = .ok false := by
  rw [pathEquals, if_neg fun hprefix => h (List.isPrefixOf_iff_prefix.mp hprefix)]

theorem pathEquals_self : pathEquals (piece :: storage) piece = .error .movePastEnd := by
  have hprefix : piece.isPrefixOf piece = true := List.isPrefixOf_iff_prefix.mpr List.prefix_rfl
  have hlength : ¬ piece.length + 1 ≤ piece.length := Nat.not_succ_le_self _
  rw [pathEquals, if_pos hprefix, removePrefix, advance, if_neg hlength]
  rfl

theorem pathEquals_cons (c : Char) :
    pathEquals (piece :: storage) (piece ++ c :: str) = pathEquals storage str := by
  have hprefix : piece.isPrefixOf (piece ++ c :: str) = true :=
    List.isPrefixOf_iff_prefix.mpr (List.prefix_append piece (c :: str))
  have hlength : piece.length + 1 ≤ (piece ++ c :: str).length := by
    rw [List.length_append, List.length_cons]
    omega
  have hdrop : (piece ++ c :: str).drop (piece.length + 1) = str := by
    rw [List.drop_append, List.drop_eq_nil_of_le (Nat.le_succ _), Nat.add_sub_cancel_left]
    rfl
  rw [pathEquals, if_pos hprefix, removePrefix, advance, if_pos hlength, hdrop]
  rfl

theorem prefix_cases (piece str : List Char) :
    ¬ piece <+: str ∨ str = piece ∨ ∃ c rest, str = piece ++ c :: rest := by
  by_cases hprefix : piece <+: str
  · obtain ⟨rest, rfl⟩ := hprefix
    cases rest with
    | nil => exact .inr (.inl (List.append_nil piece))
    | cons c rest => exact .inr (.inr ⟨c, rest, rfl⟩)
  · exact .inl hprefix

end Equals

theorem pathEquals_eq_false_iff (storage : List (List Char)) (str : List Char) :
    pathEquals storage str = .ok false ↔ Misplaced storage str := by
  induction storage generalizing str with
  | nil => exact iff_of_false (fun h => nomatch h) (misplaced_nil str)
  | cons piece storage ih =>
      rcases prefix_cases piece str with hprefix | rfl | ⟨c, rest, rfl⟩
      · exact iff_of_true (pathEquals_of_mismatch hprefix) (misplaced_of_mismatch hprefix)
      · rw [pathEquals_self]
        exact iff_of_false (fun h => nomatch h) not_misplaced_self
      · rw [pathEquals_cons, misplaced_cons]
        exact ih rest

theorem pathEquals_joinSegments {storage : List (List Char)} (h : storage ≠ []) :
    pathEquals storage (joinSegments storage) = .error .movePastEnd := by
  induction storage with
  | nil => exact (h rfl).elim
  | cons piece storage ih =>
      cases storage with
      | nil =>
          rw [joinSegments, List.intercalate_singleton]
          exact pathEquals_self
      | cons piece' storage =>
          rw [joinSegments, List.intercalate_cons_cons, List.append_assoc, List.singleton_append,
            pathEquals_cons]
          exact ih (List.cons_ne_nil piece' storage)

theorem comparesRight_iff (storage : List (List Char)) (str : List Char) :
    ComparesRight storage str ↔ storage = [] ∧ str = [] ∨ Misplaced storage str := by
  by_cases hstorage : storage = []
  · subst hstorage
    rw [or_iff_left (misplaced_nil str), and_iff_right rfl, ComparesRight, pathEquals,
      Except.ok.injEq, eq_comm, decide_eq_true_iff]
    exact Iff.rfl
  · rw [or_iff_right fun h => hstorage h.1, ← pathEquals_eq_false_iff, ComparesRight]
    by_cases hjoin : str = joinSegments storage
    · rw [hjoin, pathEquals_joinSegments hstorage]
      exact iff_of_false (fun h => nomatch h) (fun h => nomatch h)
    · rw [decide_eq_false hjoin]

/-- `a` is not found to be the path of the one segment `a`. -/
theorem not_comparesRight_self :
    ¬ ∀ (storage : List (List Char)) (str : List Char), ComparesRight storage str := by
  intro h
  cases h [['a']] ['a']

/-!
## Comparing two paths

`equal_path` goes through the slugs of both paths at once. An iterator is the list of the slugs from
it on, at an address: the second of the guards behind the loop compares the iterator of the first
list with the end of the second one. The two are at one address only if the first vector has been
emptied, because its path is not decoded, and its storage begins where the second one ends.
-/

namespace EqualPath

open Encoding Loop

abbrev Slug := List UInt8

def slash : UInt8 := '/'.toUInt8

/-- `extract_raw_slugs_to` an empty container. -/
def rawSlugs (path : List UInt8) : List Slug := if path = [] then [] else path.splitOn slash

/-- `slugs`: the container is cleared where a slug is not decoded. -/
def slugs (chars : UInt8 → Bool) (path : List UInt8) : List Slug :=
  ((rawSlugs path).mapM fun slug =>
    (Encoding.decodeUriComponent .skipChars chars slug).result).getD []

/-- The size of a slug in bytes. -/
def slugSize : ℕ := 32

/-- A vector with the slugs of a path. It has a storage, at `base`, if a slug was ever stored. -/
structure SlugVector (chars : UInt8 → Bool) where
  path : List UInt8
  base : ℕ
  capacity : ℕ
  length_le : (slugs chars path).length ≤ capacity
  allocated_iff : 0 < capacity ↔ path ≠ []
  base_iff : 0 < base ↔ 0 < capacity

variable {chars : UInt8 → Bool}

namespace SlugVector

def items (v : SlugVector chars) : List Slug := slugs chars v.path

/-- The address of the iterator from which on there is `rest`. -/
def address (v : SlugVector chars) (rest : List Slug) : ℕ :=
  v.base + (v.items.length - rest.length) * slugSize

/-- `cend` -/
def finish (v : SlugVector chars) : ℕ := v.address []

/-- Where the storage ends. -/
def limit (v : SlugVector chars) : ℕ := v.base + v.capacity * slugSize

end SlugVector

/-- Two vectors at the same time: their storages do not overlap. -/
structure SlugVectors (chars : UInt8 → Bool) where
  first : SlugVector chars
  second : SlugVector chars
  disjoint : 0 < first.capacity → 0 < second.capacity →
    first.limit ≤ second.base ∨ second.limit ≤ first.base

/-- The arguments the other way round. -/
def SlugVectors.swap (vs : SlugVectors chars) : SlugVectors chars :=
  ⟨vs.second, vs.first, fun h h' => (vs.disjoint h' h).symm⟩

def derefSlug : List Slug → Run Slug
  | [] => .error .readPastEnd
  | slug :: _ => .ok slug

def advanceSlug : List Slug → Run (List Slug)
  | [] => .error .movePastEnd
  | _ :: rest => .ok rest

/-- How the loop of `equal_path` ends. -/
inductive Exit where
  | broke (it1 it2 : List Slug)
  | returned (b : Bool)

/-- A round of the loop of `equal_path`. -/
def equalStep (its : List Slug × List Slug) : Run (Flow (List Slug × List Slug) Exit) :=
  if its.1 = [] ∨ its.2 = [] then .ok (.done (.broke its.1 its.2))
  else do
    let slug1 ← derefSlug its.1
    let slug2 ← derefSlug its.2
    if slug1 ≠ slug2 then
      if slug1 = [] then
        let it1 ← advanceSlug its.1
        .ok (.next (it1, its.2))
      else if slug2 = [] then
        let it2 ← advanceSlug its.2
        .ok (.next (its.1, it2))
      else .ok (.done (.returned false))
    else
      let it1 ← advanceSlug its.1
      let it2 ← advanceSlug its.2
      .ok (.next (it1, it2))

/-- What follows the loop: the second guard has the first iterator. -/
def equalEnd (vs : SlugVectors chars) : Exit → Bool
  | .returned b => b
  | .broke it1 it2 =>
      if vs.first.address it1 ≠ vs.first.finish ∧ ¬it1.all List.isEmpty then false
      else if vs.first.address it1 ≠ vs.second.finish ∧ ¬it2.all List.isEmpty then false
      else true

def equalPath (vs : SlugVectors chars) : Run Bool := do
  let exit ← loop equalStep .diverges (vs.first.items.length + vs.second.items.length + 1)
    (vs.first.items, vs.second.items)
  .ok (equalEnd vs exit)

/-- The slugs that are not empty. -/
def significant (items : List Slug) : List Slug := items.filter fun slug => !slug.isEmpty

section Rounds

variable {slug slug' : Slug} {rest rest' : List Slug}

theorem significant_nil : significant [] = [] := rfl

theorem significant_nil_cons (rest : List Slug) : significant ([] :: rest) = significant rest := rfl

theorem significant_cons (h : slug ≠ []) (rest : List Slug) :
    significant (slug :: rest) = slug :: significant rest :=
  List.filter_cons_of_pos (by simpa using h)

theorem significant_eq_nil_iff (items : List Slug) :
    significant items = [] ↔ items.all List.isEmpty = true := by
  simp [significant, List.filter_eq_nil_iff]

/-- The rests of the lists, which are alike where the lists are. -/
structure Rests (items1 items2 it1 it2 : List Slug) : Prop where
  suffix1 : it1 <:+ items1
  suffix2 : it2 <:+ items2
  alike_iff : significant it1 = significant it2 ↔ significant items1 = significant items2

/-- How the loop may end: at the end of a list, with rests that are alike where the lists are, or
at slugs that differ. -/
def ExitSat (items1 items2 : List Slug) : Exit → Prop
  | .broke it1 it2 => (it1 = [] ∨ it2 = []) ∧ Rests items1 items2 it1 it2
  | .returned b => b = false ∧ items1 ≠ [] ∧ significant items1 ≠ significant items2

theorem equalStep_spec {items1 items2 it1 it2 : List Slug} (h : Rests items1 items2 it1 it2) :
    Sat (fun _ => False)
      (FlowSat (fun next => Rests items1 items2 next.1 next.2 ∧
          next.1.length + next.2.length < it1.length + it2.length)
        (ExitSat items1 items2))
      (equalStep (it1, it2)) := by
  cases it1 with
  | nil => exact ⟨.inl rfl, h⟩
  | cons slug1 rest1 =>
      cases it2 with
      | nil => exact ⟨.inr rfl, h⟩
      | cons slug2 rest2 =>
          have hsuffix1 : rest1 <:+ items1 := (List.suffix_cons slug1 rest1).trans h.suffix1
          have hsuffix2 : rest2 <:+ items2 := (List.suffix_cons slug2 rest2).trans h.suffix2
          have halike := h.alike_iff
          rw [equalStep, if_neg (by simp)]
          by_cases heq : slug1 = slug2
          · subst heq
            simp only [derefSlug, advanceSlug, bind, Except.bind, ne_eq, not_true, if_false]
            refine ⟨⟨hsuffix1, hsuffix2, ?_⟩, by simp only [List.length_cons]; omega⟩
            by_cases hempty : slug1 = []
            · rwa [hempty, significant_nil_cons, significant_nil_cons] at halike
            · rwa [significant_cons hempty, significant_cons hempty, List.cons_inj_right] at halike
          · simp only [derefSlug, advanceSlug, bind, Except.bind, ne_eq, heq, not_false_eq_true,
              if_true]
            by_cases hempty : slug1 = []
            · rw [if_pos hempty]
              rw [hempty, significant_nil_cons] at halike
              exact ⟨⟨hsuffix1, h.suffix2, halike⟩, by simp only [List.length_cons]; omega⟩
            · rw [if_neg hempty]
              by_cases hempty' : slug2 = []
              · rw [if_pos hempty']
                rw [hempty', significant_nil_cons] at halike
                exact ⟨⟨h.suffix1, hsuffix2, halike⟩, by simp only [List.length_cons]; omega⟩
              · rw [if_neg hempty']
                refine ⟨rfl, h.suffix1.ne_nil (List.cons_ne_nil _ _), fun hsame => heq ?_⟩
                have hcons := halike.mpr hsame
                rw [significant_cons hempty, significant_cons hempty'] at hcons
                exact (List.cons.inj hcons).1

theorem equalLoop_spec (items1 items2 : List Slug) :
    ∃ exit, loop equalStep .diverges (items1.length + items2.length + 1) (items1, items2) =
      .ok exit ∧ ExitSat items1 items2 exit := by
  refine Sat.exists_ok (loop_sat (fun its => Rests items1 items2 its.1 its.2) _
    (fun its => its.1.length + its.2.length) ⟨List.suffix_rfl, List.suffix_rfl, Iff.rfl⟩ ?_ (Nat.lt_succ_self _))
  exact fun its _ h => equalStep_spec h

end Rounds

/-! ### Addresses -/

section Addresses

variable {vs : SlugVectors chars}

theorem address_eq_finish_iff (v : SlugVector chars) {rest : List Slug} (h : rest <:+ v.items) :
    v.address rest = v.finish ↔ rest = [] := by
  have hle := h.length_le
  constructor
  · intro heq
    rw [SlugVector.finish, SlugVector.address, SlugVector.address, slugSize, List.length_nil] at heq
    exact List.eq_nil_of_length_eq_zero (by omega)
  · rintro rfl
    rfl

/-- The first vector has been emptied, and its storage begins where the slugs of the second one
end. -/
def Abuts (vs : SlugVectors chars) : Prop :=
  vs.first.items = [] ∧ vs.first.base = vs.second.finish

theorem finish_eq_iff (h : vs.second.items ≠ []) :
    vs.first.finish = vs.second.finish ↔ Abuts vs := by
  have hlength : 0 < vs.second.items.length := List.length_pos_iff.mpr h
  have hsecond : vs.second.items.length ≤ vs.second.capacity := vs.second.length_le
  have hfirst : vs.first.items.length ≤ vs.first.capacity := vs.first.length_le
  have hcapacity : 0 < vs.second.capacity := Nat.lt_of_lt_of_le hlength hsecond
  constructor
  · intro heq
    have hnil : vs.first.items.length = 0 := by
      rcases Nat.eq_zero_or_pos vs.first.capacity with hzero | hpos
      · omega
      · have hdisjoint := vs.disjoint hpos hcapacity
        simp only [SlugVector.finish, SlugVector.address, SlugVector.limit, slugSize,
          List.length_nil] at heq hdisjoint
        omega
    refine ⟨List.eq_nil_of_length_eq_zero hnil, ?_⟩
    rw [← heq, SlugVector.finish, SlugVector.address, hnil]
    rfl
  · rintro ⟨hnil, hbase⟩
    rw [← hbase, SlugVector.finish, SlugVector.address, hnil]
    rfl

end Addresses

/-! ### The result -/

theorem equalPath_spec (vs : SlugVectors chars) :
    ∃ b, equalPath vs = .ok b ∧
      (b = true ↔ significant vs.first.items = significant vs.second.items ∨ Abuts vs) := by
  obtain ⟨exit, hloop, hexit⟩ := equalLoop_spec vs.first.items vs.second.items
  refine ⟨equalEnd vs exit, by rw [equalPath, hloop]; rfl, ?_⟩
  cases exit with
  | returned b =>
      obtain ⟨rfl, hne, hdiffer⟩ := hexit
      refine iff_of_false Bool.false_ne_true ?_
      rintro (hsame | habuts)
      · exact hdiffer hsame
      · exact hne habuts.1
  | broke it1 it2 =>
      obtain ⟨hend, hrests⟩ := hexit
      have hfinish := address_eq_finish_iff vs.first hrests.suffix1
      rw [← hrests.alike_iff, equalEnd]
      by_cases hit1 : it1 = []
      · rw [if_neg fun h => h.1 (hfinish.mpr hit1), hfinish.mpr hit1, hit1,
          eq_comm (a := significant []), significant_nil, significant_eq_nil_iff]
        by_cases hempty : vs.second.items = []
        · have hit2 : it2 = [] := List.suffix_nil.mp (hempty ▸ hrests.suffix2)
          rw [hit2, if_neg fun h => h.2 rfl]
          exact iff_of_true rfl (.inl rfl)
        · have hfinishes := finish_eq_iff hempty
          by_cases habuts : Abuts vs
          · rw [if_neg fun h => h.1 (hfinishes.mpr habuts)]
            exact iff_of_true rfl (.inr habuts)
          · rw [or_iff_left habuts]
            by_cases hall : it2.all List.isEmpty = true
            · rw [if_neg fun h => h.2 hall]
              exact iff_of_true rfl hall
            · rw [if_pos ⟨mt hfinishes.mp habuts, hall⟩]
              exact iff_of_false Bool.false_ne_true hall
      · have hit2 : it2 = [] := hend.resolve_left hit1
        have habuts : ¬Abuts vs := fun h => hit1 (List.suffix_nil.mp (h.1 ▸ hrests.suffix1))
        rw [or_iff_left habuts, hit2, significant_nil, significant_eq_nil_iff]
        by_cases hall : it1.all List.isEmpty = true
        · rw [if_neg fun h => h.2 hall, if_neg fun h => h.2 rfl]
          exact iff_of_true rfl hall
        · rw [if_pos ⟨mt hfinish.mp hit1, hall⟩]
          exact iff_of_false Bool.false_ne_true hall

/-- The result says whether the slugs are the same but for empty ones, nothing is read at the end
of a list, and the order of the paths does not matter. -/
def EqualsRight (vs : SlugVectors chars) : Prop :=
  equalPath vs =
      .ok (decide (significant vs.first.items = significant vs.second.items)) ∧
    equalPath vs.swap = equalPath vs

/-- A list with a slug that is not empty is taken for the empty one. -/
def TakenForEmpty (vs : SlugVectors chars) : Prop :=
  Abuts vs ∧ significant vs.second.items ≠ []

theorem equalPath_right_iff (vs : SlugVectors chars) :
    equalPath vs = .ok (decide (significant vs.first.items = significant vs.second.items)) ↔
      ¬TakenForEmpty vs := by
  obtain ⟨b, hresult, hb⟩ := equalPath_spec vs
  rw [hresult, Except.ok.injEq, TakenForEmpty]
  by_cases habuts : Abuts vs
  · have htrue : b = true := hb.mpr (.inr habuts)
    have hnil : significant vs.first.items = [] := by rw [habuts.1]; rfl
    rw [and_iff_right habuts, not_not, htrue, hnil, eq_comm, decide_eq_true_iff, eq_comm]
  · rw [or_iff_left habuts] at hb
    refine iff_of_true ?_ fun h => habuts h.1
    rw [Bool.eq_iff_iff, hb, decide_eq_true_iff]

/-- The comparison is right unless one of the vectors abuts on the other in this way. -/
theorem equalsRight_iff (vs : SlugVectors chars) :
    EqualsRight vs ↔ ¬TakenForEmpty vs ∧ ¬TakenForEmpty vs.swap := by
  rw [EqualsRight, equalPath_right_iff]
  refine and_congr_right fun h => ?_
  have hcomm : decide (significant vs.first.items = significant vs.second.items) =
      decide (significant vs.second.items = significant vs.first.items) :=
    decide_eq_decide.mpr eq_comm
  rw [(equalPath_right_iff vs).mpr h, hcomm]
  exact equalPath_right_iff vs.swap

/-- `/%` is not decoded, and `/a` has a slug; the storage of the first stands behind the one of the
second. -/
theorem not_equalsRight : ¬∀ (chars : UInt8 → Bool) (vs : SlugVectors chars), EqualsRight vs := by
  intro h
  have hright := h (fun _ => true)
    { first := ⟨[0x2F, 0x25], 96, 2, by decide, by decide, by decide⟩
      second := ⟨[0x2F, 0x61], 32, 2, by decide, by decide, by decide⟩
      disjoint := by decide }
  refine ((equalsRight_iff _).mp hright).1 ⟨⟨?_, ?_⟩, ?_⟩
  · decide
  · decide
  · decide

end EqualPath

end Webpp.Uri
