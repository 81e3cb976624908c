import Mathlib.Algebra.Group.Nat.Defs
import Mathlib.Order.Nat
import Webpp.Foundation.PaddedOrder

/-!
# Versions

`basic_version<OctetCount, OctetType>` is an array of octets. Two versions of one type are compared
as arrays; versions of different types are compared by templates that convert each octet on the
right to the type of those on the left. The equality walks over the octets on the left and does not
look for the end of those on the right.
-/

namespace Webpp.Utils

open PaddedOrder

/-- An unsigned integer type. Different types may have as many bits. -/
structure OctetType where
  bits : ℕ
  rank : ℕ
  deriving DecidableEq, Repr

/-- `static_cast<OctetType>` of an unsigned integer. -/
def OctetType.cast (T : OctetType) (n : ℕ) : ℕ := n % 2 ^ T.bits

theorem OctetType.cast_of_lt {T : OctetType} {n : ℕ} (h : n < 2 ^ T.bits) : T.cast n = n :=
  Nat.mod_eq_of_lt h

structure BasicVersion (octetCount : ℕ) (T : OctetType) where
  octets : List ℕ
  length_eq : octets.length = octetCount
  fits : ∀ octet ∈ octets, octet < 2 ^ T.bits
  deriving DecidableEq

variable {n m : ℕ} {T U : OctetType}

/-! ## The loops -/

/-- `std::equal` and the loop of the template `operator==`. Behind the octets on the right `none`
is a read that is out of range. -/
def equalFrom (convert : ℕ → ℕ) : List ℕ → List ℕ → Option Bool
  | [], _ => some true
  | _ :: _, [] => none
  | item :: items, octet :: rest =>
      if item ≠ convert octet then some false else equalFrom convert items rest

/-- `operator<=>` of arrays. -/
def compareArrays : List ℕ → List ℕ → Ordering := lexCompare

/-- The loops of the template `operator<=>`. Integers are always ordered. -/
def compareFrom (convert : ℕ → ℕ) : List ℕ → List ℕ → Ordering
  | [], [] => .eq
  | [], rhs => if ∃ octet ∈ rhs, octet ≠ 0 then .lt else .eq
  | lhs, [] => if ∃ octet ∈ lhs, octet ≠ 0 then .gt else .eq
  | octet :: lhs, octet' :: rhs =>
      match compare octet (convert octet') with
      | .gt => .gt
      | .lt => .lt
      | .eq => compareFrom convert lhs rhs

/-- `a == b`. -/
def BasicVersion.equals (a : BasicVersion n T) (b : BasicVersion m U) : Option Bool :=
  if n = m ∧ T = U then equalFrom id a.octets b.octets else equalFrom T.cast a.octets b.octets

/-- `a <=> b`. -/
def BasicVersion.compareTo (a : BasicVersion n T) (b : BasicVersion m U) : Ordering :=
  if n = m ∧ T = U then compareArrays a.octets b.octets
  else compareFrom T.cast a.octets b.octets

/-- Both operators have the result of the lists of octets, the shorter one padded with zeros. -/
structure ComparesRight (a : BasicVersion n T) (b : BasicVersion m U) : Prop where
  equals_eq : a.equals b = some (decide (PaddedEq a.octets b.octets))
  compareTo_eq : a.compareTo b = paddedCompare a.octets b.octets
  agree : a.equals b = some (decide (a.compareTo b = .eq))
  reversed : b.compareTo a = (a.compareTo b).swap

/-! ## What the loops compute -/

/-- An octet is not the converted one beside it. -/
def Differ (convert : ℕ → ℕ) (xs ys : List ℕ) : Prop := ∃ p ∈ xs.zip ys, p.1 ≠ convert p.2

instance (convert : ℕ → ℕ) (xs ys : List ℕ) : Decidable (Differ convert xs ys) :=
  inferInstanceAs (Decidable (∃ p ∈ xs.zip ys, p.1 ≠ convert p.2))

/-- The octets on the right, those beside an octet on the left converted. -/
def converted (convert : ℕ → ℕ) : List ℕ → List ℕ → List ℕ
  | [], ys => ys
  | _, [] => []
  | _ :: xs, y :: ys => convert y :: converted convert xs ys

section Loops

variable {convert : ℕ → ℕ}

theorem differ_cons (x y : ℕ) (xs ys : List ℕ) :
    Differ convert (x :: xs) (y :: ys) ↔ x ≠ convert y ∨ Differ convert xs ys := by
  rw [Differ, List.zip_cons_cons, List.exists_mem_cons_iff]
  rfl

theorem not_differ_nil_left (ys : List ℕ) : ¬Differ convert [] ys := by
  rintro ⟨p, hp, -⟩
  exact List.not_mem_nil hp

theorem not_differ_nil_right (xs : List ℕ) : ¬Differ convert xs [] := by
  rintro ⟨p, hp, -⟩
  rw [List.zip_nil_right] at hp
  exact List.not_mem_nil hp

theorem equalFrom_eq (xs ys : List ℕ) :
    equalFrom convert xs ys =
      if Differ convert xs ys then some false
      else if xs.length ≤ ys.length then some true else none := by
  induction xs generalizing ys with
  | nil =>
      have hlength : ([] : List ℕ).length ≤ ys.length := Nat.zero_le _
      rw [equalFrom, if_neg (not_differ_nil_left ys), if_pos hlength]
  | cons x xs ih =>
      cases ys with
      | nil =>
          have hlength : ¬(x :: xs).length ≤ ([] : List ℕ).length := Nat.not_succ_le_zero _
          rw [equalFrom, if_neg (not_differ_nil_right _), if_neg hlength]
      | cons y ys =>
          rw [equalFrom, ih ys]
          by_cases hxy : x = convert y
          · simp [differ_cons, hxy]
          · simp [differ_cons, hxy]

theorem compareFrom_eq (xs ys : List ℕ) :
    compareFrom convert xs ys = paddedCompare xs (converted convert xs ys) := by
  induction xs generalizing ys with
  | nil =>
      rw [converted, paddedCompare_nil_left]
      cases ys with
      | nil => rfl
      | cons y ys => rfl
  | cons x xs ih =>
      cases ys with
      | nil =>
          rw [converted, paddedCompare_nil_right]
          · rfl
          · exact fun h => nomatch h
      | cons y ys =>
          rw [converted, paddedCompare_cons, compareFrom, ih ys]
          cases compare x (convert y) with
          | lt => rfl
          | eq => rfl
          | gt => rfl

theorem converted_eq_self {xs ys : List ℕ} (h : ∀ p ∈ xs.zip ys, convert p.2 = p.2) :
    converted convert xs ys = ys := by
  induction xs generalizing ys with
  | nil => rw [converted]
  | cons x xs ih =>
      cases ys with
      | nil => rfl
      | cons y ys =>
          rw [List.zip_cons_cons, List.forall_mem_cons] at h
          rw [converted, ih h.2, h.1]

end Loops

/-! ## When the operators compare right -/

theorem zip_of_paddedEq {xs ys : List ℕ} (h : PaddedEq xs ys) : ∀ p ∈ xs.zip ys, p.1 = p.2 := by
  induction xs generalizing ys with
  | nil => simp
  | cons x xs ih =>
      cases ys with
      | nil => simp
      | cons y ys =>
          rw [paddedEq_cons] at h
          rw [List.zip_cons_cons, List.forall_mem_cons]
          exact ⟨h.1, ih h.2⟩

theorem not_differ_id_iff {xs ys : List ℕ} (h : xs.length = ys.length) :
    ¬Differ id xs ys ↔ PaddedEq xs ys := by
  induction xs generalizing ys with
  | nil =>
      rw [List.eq_nil_of_length_eq_zero h.symm]
      exact iff_of_true (not_differ_nil_left _) rfl
  | cons x xs ih =>
      cases ys with
      | nil => cases h
      | cons y ys =>
          rw [differ_cons, paddedEq_cons, not_or, not_ne_iff, ih (Nat.succ.inj h)]
          rfl

namespace BasicVersion

theorem cast_of_zip (a : BasicVersion n T) {ys : List ℕ}
    (h : ∀ p ∈ a.octets.zip ys, p.1 = p.2) : ∀ p ∈ a.octets.zip ys, T.cast p.2 = p.2 := by
  intro p hp
  have hfits := a.fits p.1 (List.of_mem_zip hp).1
  rw [h p hp] at hfits
  exact OctetType.cast_of_lt hfits

variable (a : BasicVersion n T) (b : BasicVersion m U)

section SameType

variable {a b}

theorem equals_of_same (h : n = m ∧ T = U) :
    a.equals b = some (decide (PaddedEq a.octets b.octets)) := by
  have hlength : a.octets.length = b.octets.length := by rw [a.length_eq, b.length_eq, h.1]
  rw [equals, if_pos h, equalFrom_eq, if_pos hlength.le]
  by_cases hdiffer : Differ id a.octets b.octets
  · rw [if_pos hdiffer, decide_eq_false fun heq => (not_differ_id_iff hlength).mpr heq hdiffer]
  · rw [if_neg hdiffer, decide_eq_true ((not_differ_id_iff hlength).mp hdiffer)]

theorem compareTo_of_same (h : n = m ∧ T = U) :
    a.compareTo b = paddedCompare a.octets b.octets := by
  have hlength : a.octets.length = b.octets.length := by rw [a.length_eq, b.length_eq, h.1]
  rw [compareTo, if_pos h, compareArrays, paddedCompare_of_length_eq hlength]

theorem equals_of_ne (h : ¬(n = m ∧ T = U)) :
    a.equals b =
      if Differ T.cast a.octets b.octets then some false
      else if n ≤ m then some true else none := by
  rw [equals, if_neg h, equalFrom_eq, a.length_eq, b.length_eq]

theorem compareTo_of_ne (h : ¬(n = m ∧ T = U)) :
    a.compareTo b = paddedCompare a.octets (converted T.cast a.octets b.octets) := by
  rw [compareTo, if_neg h, compareFrom_eq]

end SameType

theorem comparesRight_of {a : BasicVersion n T} {b : BasicVersion m U}
    (hequals : a.equals b = some (decide (PaddedEq a.octets b.octets)))
    (hcompare : a.compareTo b = paddedCompare a.octets b.octets)
    (hcompare' : b.compareTo a = paddedCompare b.octets a.octets) : ComparesRight a b where
  equals_eq := hequals
  compareTo_eq := hcompare
  agree := by
    rw [hequals, hcompare]
    exact congrArg some (decide_eq_decide.mpr (paddedCompare_eq_iff _ _).symm)
  reversed := by rw [hcompare', hcompare, paddedCompare_swap]

/-- The versions differ in an octet that both have, and the conversion of the octets that stand
beside one of the other version leaves the order as it is, on either side. -/
structure OrderSurvives : Prop where
  differ : Differ T.cast a.octets b.octets
  right : paddedCompare a.octets (converted T.cast a.octets b.octets) =
    paddedCompare a.octets b.octets
  left : paddedCompare b.octets (converted U.cast b.octets a.octets) =
    paddedCompare b.octets a.octets

theorem not_differ_of_paddedEq (h : PaddedEq a.octets b.octets) :
    ¬Differ T.cast a.octets b.octets := by
  rintro ⟨p, hp, hne⟩
  apply hne
  rw [a.cast_of_zip (zip_of_paddedEq h) p hp]
  exact zip_of_paddedEq h p hp

theorem converted_of_paddedEq (h : PaddedEq a.octets b.octets) :
    converted T.cast a.octets b.octets = b.octets :=
  converted_eq_self (a.cast_of_zip (zip_of_paddedEq h))

/-- The operators are right for versions of one type, for equal versions the first of which is no
longer, and for versions whose order the conversions keep. -/
theorem versionComparesRight_iff :
    ComparesRight a b ↔
      (n = m ∧ T = U) ∨ (PaddedEq a.octets b.octets ∧ n ≤ m) ∨ OrderSurvives a b := by
  by_cases hsame : n = m ∧ T = U
  · have hsame' : m = n ∧ U = T := ⟨hsame.1.symm, hsame.2.symm⟩
    exact iff_of_true
      (comparesRight_of (equals_of_same hsame) (compareTo_of_same hsame) (compareTo_of_same hsame'))
      (.inl hsame)
  have hsame' : ¬(m = n ∧ U = T) := fun h => hsame ⟨h.1.symm, h.2.symm⟩
  have hequals := equals_of_ne (a := a) (b := b) hsame
  have hcompare := compareTo_of_ne (a := a) (b := b) hsame
  have hcompare' := compareTo_of_ne (a := b) (b := a) hsame'
  rw [or_iff_right hsame]
  by_cases heq : PaddedEq a.octets b.octets
  · have hdiffer := not_differ_of_paddedEq a b heq
    rw [if_neg hdiffer] at hequals
    rw [converted_of_paddedEq a b heq] at hcompare
    rw [converted_of_paddedEq b a heq.symm] at hcompare'
    constructor
    · intro h
      have hright := h.equals_eq
      rw [hequals, decide_eq_true heq] at hright
      refine .inl ⟨heq, ?_⟩
      by_contra hlength
      rw [if_neg hlength] at hright
      cases hright
    · rintro (⟨-, hlength⟩ | h)
      · rw [if_pos hlength, ← decide_eq_true heq] at hequals
        exact comparesRight_of hequals hcompare hcompare'
      · exact (hdiffer h.differ).elim
  · constructor
    · intro h
      have hright := h.equals_eq
      rw [hequals, decide_eq_false heq] at hright
      refine .inr ⟨?_, ?_, ?_⟩
      · by_contra hdiffer
        rw [if_neg hdiffer] at hright
        split at hright
        · cases hright
        · cases hright
      · rw [← hcompare, h.compareTo_eq]
      · rw [← hcompare', h.reversed, h.compareTo_eq, paddedCompare_swap]
    · rintro (⟨heq', -⟩ | h)
      · exact (heq heq').elim
      · rw [if_pos h.differ, ← decide_eq_false heq] at hequals
        exact comparesRight_of hequals (hcompare.trans h.right) (hcompare'.trans h.left)

/-- `1.2` is found equal to `1.2.3`. -/
theorem not_comparesRight_shorter :
    ¬∀ (n m : ℕ) (T U : OctetType) (a : BasicVersion n T) (b : BasicVersion m U),
      ComparesRight a b := by
  intro h
  have hright := (h 2 3 ⟨16, 0⟩ ⟨16, 0⟩ ⟨[1, 2], rfl, by decide⟩ ⟨[1, 2, 3], rfl, by decide⟩).equals_eq
  revert hright
  decide

end BasicVersion

end Webpp.Utils
