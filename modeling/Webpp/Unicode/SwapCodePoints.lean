import Mathlib.Data.List.Rotate
import Webpp.Unicode.Utf8

/-!
# `swap_code_points`

The ranges that are swapped may overlap. The one in front takes over the other one, and what stood
in front is rotated behind it; another rotation is to move the shorter code point to its place.
The beginning of that rotation is behind its middle where a long code point stands too close behind
a short one.
-/

namespace Webpp.Unicode

open UnitCode

section Swaps

variable {β : Type}

/-- `std::iter_swap` -/
def iterSwap (s : List β) (lhs rhs : ℕ) : Option (List β) := do
  let a ← s[lhs]?
  let b ← s[rhs]?
  return (s.set lhs b).set rhs a

/-- `std::swap_ranges` for `n` elements, one after the other also if the ranges overlap -/
def swapRanges : ℕ → List β → ℕ → ℕ → Option (List β)
  | 0, s, _, _ => some s
  | n + 1, s, first1, first2 => do
      let s ← iterSwap s first1 first2
      swapRanges n s (first1 + 1) (first2 + 1)

/-- `std::rotate` -/
def rotate (s : List β) (first middle last : ℕ) : Option (List β) :=
  if first ≤ middle ∧ middle ≤ last ∧ last ≤ s.length then
    some (s.take first ++
      ((s.take last).drop middle ++ ((s.take middle).drop first ++ s.drop last)))
  else none

/-- The part of `swap_code_points` behind the lengths. -/
def swapOfLengths (s : List β) (lhs rhs lhsLength rhsLength : ℕ) : Option (List β) := do
  let s ← swapRanges rhsLength s lhs rhs
  if lhsLength = rhsLength then
    return s
  else
    let middle := (if lhsLength > rhsLength then lhs else rhs) + lhsLength
    rotate s (lhs + rhsLength) middle (rhs + rhsLength)

end Swaps

/-- `unchecked::swap_code_points` for UTF-8, where the iterators are first brought in order -/
def Utf8.swapCodePoints (s : List UInt8) (lhs rhs : ℕ) : Option (List UInt8) := do
  let first := min lhs rhs
  let second := max lhs rhs
  let lhsUnit ← Utf8.read s first
  let lhsLength ← Utf8.requiredLengthOf lhsUnit
  let rhsUnit ← Utf8.read s second
  let rhsLength ← Utf8.requiredLengthOf rhsUnit
  if lhsLength ≤ 6 ∧ rhsLength ≤ 6 then
    swapOfLengths s first second lhsLength rhsLength
  else
    none

/-! ## Swaps -/

section SwapLemmas

variable {β : Type} (front between behind : List β)

theorem iterSwap_append (x y : β) :
    iterSwap (front ++ x :: (between ++ y :: behind)) front.length
        (front.length + (between.length + 1)) =
      some (front ++ y :: (between ++ x :: behind)) := by
  have hfirst : (front ++ x :: (between ++ y :: behind))[front.length]? = some x := by simp
  have hsecond : (front ++ x :: (between ++ y :: behind))[front.length + (between.length + 1)]? =
      some y := by
    rw [List.getElem?_append_right (Nat.le_add_right _ _), Nat.add_sub_cancel_left]
    simp
  rw [iterSwap, hfirst, hsecond]
  simp

theorem swapRanges_append (base : List β) (hbase : base ≠ []) (range : List β) :
    swapRanges range.length (front ++ (base ++ (range ++ behind))) front.length
        (front.length + base.length) =
      some (front ++ (range ++ (base.rotate range.length ++ behind))) := by
  induction range generalizing front base with
  | nil => simp [swapRanges]
  | cons y range ih =>
      obtain ⟨x, base, rfl⟩ := List.exists_cons_of_ne_nil hbase
      have hswap := iterSwap_append front base (range ++ behind) x y
      have hrest := ih (front ++ [y]) (base ++ [x]) (by simp)
      have hshape : front ++ y :: (base ++ x :: (range ++ behind)) =
          front ++ [y] ++ (base ++ [x] ++ (range ++ behind)) := by simp
      have hpos : (front ++ [y]).length = front.length + 1 := by simp
      have hpos' : (front ++ [y]).length + (base ++ [x]).length =
          front.length + (base.length + 1) + 1 := by
        simp only [List.length_append, List.length_cons, List.length_nil]
        omega
      rw [hpos', hpos, ← hshape] at hrest
      rw [List.length_cons, List.length_cons, swapRanges, List.cons_append, List.cons_append,
        hswap, Option.bind_eq_bind, Option.bind_some, hrest, List.rotate_cons_succ]
      simp

theorem rotate_append (x y z w : List β) :
    rotate (x ++ (y ++ (z ++ w))) x.length (x.length + y.length)
      (x.length + y.length + z.length) = some (x ++ (z ++ (y ++ w))) := by
  rw [rotate, if_pos]
  · have hlast : (x ++ (y ++ (z ++ w))).take (x.length + y.length + z.length) = x ++ y ++ z := by
      simp [List.take_append, Nat.add_assoc, List.take_of_length_le]
    have hmiddle : (x ++ (y ++ (z ++ w))).take (x.length + y.length) = x ++ y := by
      simp [List.take_append, List.take_of_length_le]
    rw [hlast, hmiddle]
    simp [List.drop_append, List.drop_eq_nil_of_le, Nat.add_assoc]
  · simp only [List.length_append]
    omega

theorem rotate_range (range : List β) {m : ℕ} (h : m ≤ range.length) :
    rotate (front ++ (range ++ behind)) front.length (front.length + m)
        (front.length + range.length) =
      some (front ++ (range.rotate m ++ behind)) := by
  have hrotate := rotate_append front (range.take m) (range.drop m) behind
  rw [← List.append_assoc (range.take m), List.take_append_drop, List.length_take_of_le h,
    Nat.add_assoc, List.length_drop, Nat.add_sub_cancel' h] at hrotate
  rw [hrotate, List.rotate_eq_drop_append_take h, List.append_assoc]

variable {front between behind} {x y : List β}

theorem swapOfLengths_of_le (hx : x ≠ []) (h : y.length ≤ 2 * x.length + between.length) :
    swapOfLengths (front ++ (x ++ (between ++ (y ++ behind)))) front.length
        (front.length + (x.length + between.length)) x.length y.length =
      some (front ++ (y ++ (between ++ (x ++ behind)))) := by
  have hbase : x ++ between ≠ [] := by simp [hx]
  have hranges := swapRanges_append front behind _ hbase y
  rw [List.length_append, List.append_assoc] at hranges
  have hlength : ((x ++ between).rotate y.length).length = x.length + between.length := by
    rw [List.length_rotate, List.length_append]
  -- the rotation by `m` leads to the one by the length of `x`
  have hrotate : ∀ m ≤ x.length + between.length,
      (x ++ between).rotate (y.length + m) = between ++ x →
      rotate (front ++ (y ++ ((x ++ between).rotate y.length ++ behind)))
          (front.length + y.length) (front.length + y.length + m)
          (front.length + y.length + (x.length + between.length)) =
        some (front ++ (y ++ (between ++ (x ++ behind)))) := by
    intro m hm heq
    have hrange := rotate_range (front ++ y) behind ((x ++ between).rotate y.length)
      (hm.trans_eq hlength.symm)
    rw [hlength, List.rotate_rotate, heq, List.length_append] at hrange
    simpa using hrange
  rw [swapOfLengths, hranges, Option.bind_eq_bind, Option.bind_some]
  rcases Nat.lt_trichotomy x.length y.length with hlt | heq | hgt
  · rw [if_neg (Nat.ne_of_lt hlt), if_neg (Nat.not_lt.2 (Nat.le_of_lt hlt))]
    have hturn : (x ++ between).rotate (y.length + (2 * x.length + between.length - y.length)) =
        between ++ x := by
      have hsum : y.length + (2 * x.length + between.length - y.length) =
          (x ++ between).length + x.length := by
        rw [List.length_append]
        omega
      rw [hsum, ← List.rotate_rotate, List.rotate_length, List.rotate_append_length_eq]
    have hresult := hrotate (2 * x.length + between.length - y.length) (by omega) hturn
    convert hresult using 2 <;> omega
  · rw [if_pos heq, ← heq, List.rotate_append_length_eq, List.append_assoc]
    rfl
  · rw [if_neg (Nat.ne_of_gt hgt), if_pos hgt]
    have hturn : (x ++ between).rotate (y.length + (x.length - y.length)) = between ++ x := by
      rw [Nat.add_sub_cancel' (Nat.le_of_lt hgt), List.rotate_append_length_eq]
    have hresult := hrotate (x.length - y.length) (by omega) hturn
    convert hresult using 2 <;> omega

theorem swapOfLengths_of_lt (hx : x ≠ []) (h : 2 * x.length + between.length < y.length) :
    swapOfLengths (front ++ (x ++ (between ++ (y ++ behind)))) front.length
        (front.length + (x.length + between.length)) x.length y.length = none := by
  have hbase : x ++ between ≠ [] := by simp [hx]
  have hranges := swapRanges_append front behind _ hbase y
  rw [List.length_append, List.append_assoc] at hranges
  rw [swapOfLengths, hranges, Option.bind_eq_bind, Option.bind_some, if_neg (by omega),
    if_neg (by omega), rotate, if_neg (by omega)]

end SwapLemmas

namespace Utf8

theorem requiredLengthOf_encoded {c : ℕ} {units : List UInt8} (h : Encoded c units)
    (before after : List UInt8) :
    ∃ unit, read (before ++ (units ++ after)) before.length = some unit ∧
      requiredLengthOf unit = some units.length ∧ units.length ≤ 6 := by
  cases h with
  | one hc ha => simp [requiredLengthOf, ha, single c hc]
  | @two a b x y hc hx hlow hy ha hb => simp [requiredLengthOf, ha, lead_two x hx]
  | @three a b d x y z hc hx hlow hy hz ha hb hd =>
      simp [requiredLengthOf, ha, lead_three x hx]
  | @four a b d e x y z w hc hx hlow hy hz hw ha hb hd he =>
      simp [requiredLengthOf, ha, lead_four x hx]

section Swap

variable {a b : ℕ} {x y : List UInt8}

theorem swapCodePoints_eq (hx : Encoded a x) (hy : Encoded b y)
    (before between after : List UInt8) (lhs rhs : ℕ) (hlhs : min lhs rhs = before.length)
    (hrhs : max lhs rhs = before.length + (x.length + between.length)) :
    swapCodePoints (before ++ (x ++ (between ++ (y ++ after)))) lhs rhs =
      swapOfLengths (before ++ (x ++ (between ++ (y ++ after)))) before.length
        (before.length + (x.length + between.length)) x.length y.length := by
  obtain ⟨lhsUnit, hlhsRead, hlhsLength, hlhsLe⟩ :=
    requiredLengthOf_encoded hx before (between ++ (y ++ after))
  obtain ⟨rhsUnit, hrhsRead, hrhsLength, hrhsLe⟩ :=
    requiredLengthOf_encoded hy (before ++ (x ++ between)) after
  rw [List.length_append, List.length_append, List.append_assoc, List.append_assoc] at hrhsRead
  simp only [swapCodePoints, hlhs, hrhs, hlhsRead, hrhsRead, hlhsLength, hrhsLength,
    Option.bind_eq_bind, Option.bind_some]
  exact if_pos ⟨hlhsLe, hrhsLe⟩

theorem Encoded.length_le (h : Encoded a x) : x.length ≤ 4 := by
  cases h <;> simp

theorem Encoded.two_le_length (h : Encoded a x) (ha : 0x80 ≤ a) : 2 ≤ x.length := by
  cases h with
  | one hlt => exact absurd ha (Nat.not_le.2 hlt)
  | _ => simp

theorem Encoded.ne_nil (h : Encoded a x) : x ≠ [] := by
  cases h <;> simp

/-- Code points that are not in ASCII have two to four units, and any two of them are swapped. -/
theorem swapCodePoints_encoded (hx : Encoded a x) (hy : Encoded b y) (ha : 0x80 ≤ a)
    (before after : List UInt8) :
    swapCodePoints (before ++ (x ++ (y ++ after))) (before.length + x.length) before.length =
      some (before ++ (y ++ (x ++ after))) := by
  have hlengths : y.length ≤ 2 * x.length + ([] : List UInt8).length := by
    have htwo := hx.two_le_length ha
    have hfour := hy.length_le
    simp only [List.length_nil]
    omega
  have heq := swapCodePoints_eq hx hy before [] after (before.length + x.length) before.length
    (Nat.min_eq_right (Nat.le_add_right _ _)) (Nat.max_eq_left (Nat.le_add_right _ _))
  rw [swapOfLengths_of_le hx.ne_nil hlengths] at heq
  simpa using heq

end Swap

/-- The two code points are exchanged, whichever of them is named first, and each rotation has its
middle between its ends. -/
def SwapsCodePoints (before : List ℕ) (x : ℕ) (between : List ℕ) (y : ℕ) (after : List ℕ) :
    Prop :=
  let s := text encode (before ++ x :: (between ++ y :: after))
  let swapped := text encode (before ++ y :: (between ++ x :: after))
  let lhs := (text encode before).length
  let rhs := lhs + ((encode x).length + (text encode between).length)
  swapCodePoints s lhs rhs = some swapped ∧ swapCodePoints s rhs lhs = some swapped

instance (before : List ℕ) (x : ℕ) (between : List ℕ) (y : ℕ) (after : List ℕ) :
    Decidable (SwapsCodePoints before x between y after) := inferInstanceAs (Decidable (_ ∧ _))

/-- Two code points of a text are exchanged if and only if the second one is at most as long as
twice the first one and what is between them. -/
theorem swapCodePoints_iff (before : List ℕ) (x : ℕ) (between : List ℕ) (y : ℕ) (after : List ℕ)
    (hscalar : ∀ c ∈ before ++ x :: (between ++ y :: after), IsScalar c) :
    SwapsCodePoints before x between y after ↔
      (encode y).length ≤ 2 * (encode x).length + (text encode between).length := by
  have hx : Encoded x (encode x) := encoded_encode (lt_of_isScalar (hscalar x (by simp)))
  have hy : Encoded y (encode y) := encoded_encode (lt_of_isScalar (hscalar y (by simp)))
  have heq : ∀ lhs rhs, min lhs rhs = (text encode before).length →
      max lhs rhs = (text encode before).length +
        ((encode x).length + (text encode between).length) →
      swapCodePoints (text encode (before ++ x :: (between ++ y :: after))) lhs rhs =
        swapOfLengths (text encode (before ++ x :: (between ++ y :: after)))
          (text encode before).length ((text encode before).length +
            ((encode x).length + (text encode between).length)) (encode x).length
          (encode y).length := by
    intro lhs rhs hlhs hrhs
    rw [text_append, text_cons, text_append, text_cons]
    exact swapCodePoints_eq hx hy _ _ _ _ _ hlhs hrhs
  rw [SwapsCodePoints,
    heq _ _ (Nat.min_eq_left (Nat.le_add_right _ _)) (Nat.max_eq_right (Nat.le_add_right _ _)),
    heq _ _ (Nat.min_eq_right (Nat.le_add_right _ _)) (Nat.max_eq_left (Nat.le_add_right _ _)),
    and_self, text_append, text_cons, text_append, text_cons, text_append, text_cons, text_append,
    text_cons]
  by_cases hle : (encode y).length ≤ 2 * (encode x).length + (text encode between).length
  · exact iff_of_true (swapOfLengths_of_le hx.ne_nil hle) hle
  · rw [swapOfLengths_of_lt hx.ne_nil (Nat.lt_of_not_le hle)]
    exact iff_of_false (Option.some_ne_none _).symm hle

/-- The swap of `é` and `€` with an `a` between them. -/
theorem swapCodePoints_iff_euro :
    SwapsCodePoints [] 0xE9 [0x61] 0x20AC [] ↔
      (encode 0x20AC).length ≤ 2 * (encode 0xE9).length + (text encode [0x61]).length :=
  swapCodePoints_iff [] 0xE9 [0x61] 0x20AC [] (by decide)

/-- The rotation for `a€` is from behind the string to its second unit. -/
theorem not_swapsCodePoints_euro : ¬ SwapsCodePoints [] 0x61 [] 0x20AC [] := by
  decide

end Utf8

end Webpp.Unicode
