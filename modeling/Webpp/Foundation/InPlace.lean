import Mathlib.Data.List.Basic

/-!
# Writes and copies in one buffer

A copy goes from the first element to the last one. Where it overlaps with its target, it reads
what it has written, so that the elements repeat at the distance of the two places.
-/

namespace InPlace

variable {β : Type*}

/-- The units are written one after the other. -/
def writeAll : List β → ℕ → List β → Option (List β)
  | buf, _, [] => some buf
  | buf, pos, u :: units =>
      if pos < buf.length then writeAll (buf.set pos u) (pos + 1) units else none

/-- `n` elements are copied from `first` on, one after the other. -/
def copyForward : ℕ → List β → ℕ → ℕ → Option (List β)
  | 0, buf, _, _ => some buf
  | n + 1, buf, first, target =>
      buf[first]?.bind (fun u =>
        if target < buf.length then copyForward n (buf.set target u) (first + 1) (target + 1)
        else none)

/-- The elements repeat at the distance `d`. -/
def Repeats (d : ℕ) (s : List β) : Prop := ∀ i, i + d < s.length → s[i + d]? = s[i]?

theorem repeats_of_length_le {d : ℕ} {s : List β} (h : s.length ≤ d) : Repeats d s := by
  intro i hi
  omega

theorem writeAll_append {units x : List β} (h : x.length = units.length) (before y : List β) :
    writeAll (before ++ (x ++ y)) before.length units = some (before ++ (units ++ y)) := by
  induction units generalizing before x with
  | nil =>
      rw [List.length_eq_zero_iff.1 h]
      rfl
  | cons u units ih =>
      cases x with
      | nil => cases h
      | cons v x =>
          have hlt : before.length < (before ++ (v :: x ++ y)).length := by simp
          have hset : (before ++ (v :: x ++ y)).set before.length u =
              before ++ [u] ++ (x ++ y) := by simp
          have hlength : before.length + 1 = (before ++ [u]).length := by simp
          rw [writeAll, if_pos hlt, hset, hlength, ih (Nat.succ.inj h)]
          simp

theorem length_of_writeAll {buf buf' units : List β} {pos : ℕ} (hpos : pos ≤ buf.length)
    (h : writeAll buf pos units = some buf') : pos + units.length ≤ buf.length := by
  induction units generalizing buf pos with
  | nil => exact hpos
  | cons u units ih =>
      rw [writeAll] at h
      split at h
      · rename_i hlt
        have hrest := ih (by rw [List.length_set]; exact hlt) h
        rw [List.length_set] at hrest
        rw [List.length_cons]
        omega
      · cases h

/-- A buffer of one value keeps it behind what is written. -/
theorem writeAll_replicate {n : ℕ} {z : β} {units buf : List β} :
    writeAll (List.replicate n z) 0 units = some buf ↔
      units.length ≤ n ∧ buf = units ++ List.replicate (n - units.length) z := by
  have hwrite : units.length ≤ n → writeAll (List.replicate n z) 0 units =
      some (units ++ List.replicate (n - units.length) z) := by
    intro hle
    have hsplit : List.replicate n z =
        [] ++ (List.replicate units.length z ++ List.replicate (n - units.length) z) := by
      rw [List.nil_append, List.replicate_append_replicate, Nat.add_sub_cancel' hle]
    rw [hsplit]
    exact writeAll_append List.length_replicate [] _
  constructor
  · intro h
    have hle := length_of_writeAll (Nat.zero_le _) h
    rw [Nat.zero_add, List.length_replicate] at hle
    rw [hwrite hle] at h
    exact ⟨hle, (Option.some.inj h).symm⟩
  · rintro ⟨hle, rfl⟩
    exact hwrite hle

/-- A tail that is copied to the left takes the place of the gap in front of it. -/
theorem copyForward_gap (before gap tail : List β) : ∃ rest, rest.length = gap.length ∧
    copyForward tail.length (before ++ (gap ++ tail)) (before.length + gap.length) before.length =
      some (before ++ (tail ++ rest)) := by
  induction tail generalizing before gap with
  | nil => exact ⟨gap, rfl, by simp [copyForward]⟩
  | cons u tail ih =>
      have hread : (before ++ (gap ++ u :: tail))[before.length + gap.length]? = some u := by
        rw [List.getElem?_append_right (Nat.le_add_right _ _), Nat.add_sub_cancel_left]
        simp
      have hlt : before.length < (before ++ (gap ++ u :: tail)).length := by
        simp only [List.length_append, List.length_cons]
        omega
      -- what is copied stays behind as the last element of the gap
      obtain ⟨gap', hlength, hset⟩ : ∃ gap' : List β, gap'.length = gap.length ∧
          (before ++ (gap ++ u :: tail)).set before.length u =
            (before ++ [u]) ++ (gap' ++ tail) := by
        cases gap with
        | nil => exact ⟨[], rfl, by simp⟩
        | cons v gap => exact ⟨gap ++ [u], by simp, by simp⟩
      obtain ⟨rest, hrest, hcopy⟩ := ih (before ++ [u]) gap'
      refine ⟨rest, hrest.trans hlength, ?_⟩
      have hfirst : before.length + gap.length + 1 = (before ++ [u]).length + gap'.length := by
        rw [List.length_append, List.length_singleton, hlength]
        omega
      have htarget : before.length + 1 = (before ++ [u]).length := by
        rw [List.length_append, List.length_singleton]
      rw [List.length_cons, copyForward, hread, Option.bind_some, if_pos hlt, hset, hfirst, htarget,
        hcopy]
      simp

/-- What has been copied so far is the beginning of `s`, and the source is still `s`. -/
structure Copied (s buf : List β) (d i : ℕ) : Prop where
  length : buf.length = s.length + d
  source : ∀ j < s.length, buf[j]? = s[j]?
  target : ∀ j < i, buf[d + j]? = s[j]?

theorem Copied.set {s buf : List β} {d i : ℕ} {u : β} (h : Copied s buf d i) (hs : Repeats d s)
    (hu : s[i]? = some u) : Copied s (buf.set (d + i) u) d (i + 1) := by
  have hi : i < s.length := (List.getElem?_eq_some_iff.1 hu).1
  have hset : (buf.set (d + i) u)[d + i]? = some u := by
    rw [List.getElem?_set_self]
    rw [h.length]
    omega
  constructor
  · rw [List.length_set, h.length]
  · intro j hj
    by_cases heq : d + i = j
    · subst heq
      have hrepeat := hs i (by omega)
      rw [hset, Nat.add_comm, hrepeat, hu]
    · rw [List.getElem?_set_ne heq, h.source j hj]
  · intro j hj
    by_cases heq : i = j
    · subst heq
      rw [hset, hu]
    · rw [List.getElem?_set_ne (by omega), h.target j (by omega)]

theorem copyForward_of_copied {s buf : List β} {d i n : ℕ} (h : Copied s buf d i)
    (hs : Repeats d s) (hn : i + n = s.length) :
    ∃ buf', copyForward n buf i (d + i) = some buf' ∧ Copied s buf' d s.length := by
  induction n generalizing buf i with
  | zero =>
      rw [Nat.add_zero] at hn
      subst hn
      exact ⟨buf, rfl, h⟩
  | succ n ih =>
      have hi : i < s.length := by omega
      have hu : s[i]? = some s[i] := List.getElem?_eq_getElem hi
      have hlt : d + i < buf.length := by
        rw [h.length]
        omega
      rw [copyForward, h.source i hi, hu, Option.bind_some, if_pos hlt]
      exact ih (h.set hs hu) (by omega)

/-- A text that repeats at the distance of the two places is copied as it is. -/
theorem copyForward_of_repeats {s grown : List β} (hs : Repeats grown.length s) :
    ∃ gap, copyForward s.length (s ++ grown) 0 grown.length = some (gap ++ s) ∧
      gap.length = grown.length := by
  have hcopied : Copied s (s ++ grown) grown.length 0 := by
    constructor
    · exact List.length_append
    · intro j hj
      exact List.getElem?_append_left hj
    · intro j hj
      exact absurd hj (Nat.not_lt_zero j)
  obtain ⟨buf, hcopy, hbuf⟩ := copyForward_of_copied hcopied hs (Nat.zero_add _)
  refine ⟨buf.take grown.length, ?_, ?_⟩
  · have hdrop : buf.drop grown.length = s := by
      apply List.ext_getElem?
      intro j
      rw [List.getElem?_drop]
      by_cases hj : j < s.length
      · exact hbuf.target j hj
      · have hlength := hbuf.length
        rw [List.getElem?_eq_none (by omega), List.getElem?_eq_none (by omega)]
    have hsplit := List.take_append_drop grown.length buf
    rw [hdrop] at hsplit
    rw [hsplit]
    exact hcopy
  · rw [List.length_take, hbuf.length]
    omega

end InPlace
