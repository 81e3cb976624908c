import Webpp.Foundation.InPlace
import Webpp.Unicode.Utf8

/-!
# `utf_reducer` with one pin

A code point is written over the one under the pin, and what is left of that one is closed when the
string is reduced. How much is left is counted with the length that `utf8_length_from_utf32` gives,
which is 3 also for the code points of four units.
-/

namespace Webpp.Unicode.Utf8

open InPlace UnitCode

def isCodeUnitStart (unit : ℕ) : Bool := unit &&& 0xC0 != 0x80

def utf8LengthFromUtf32 (codePoint : ℕ) : ℕ :=
  if codePoint < 0x80 then 1
  else if codePoint < 0x800 then 2
  else if 0xDC00 ≤ codePoint ∧ codePoint < 0xE000 then 0
  else if 0xD800 ≤ codePoint ∧ codePoint < 0xDC00 then 4
  else 3

/-- `required_length_of` the unit at the position -/
def requiredLengthAt (s : List UInt8) (pos : ℕ) : Option ℕ := do
  let unit ← read s pos
  requiredLengthOf unit

/-- The units from `begin` to `endptr`, with the members of the one pin. -/
structure UtfReducer where
  units : List UInt8
  newend : ℕ
  iter : ℕ
  state : ℤ
  codePoint : ℕ
  deriving DecidableEq

namespace UtfReducer

/-- The constructor. -/
def ofUnits (units : List UInt8) : Option UtfReducer := do
  let first ← nextCodePoint units 0
  return ⟨units, units.length, 0, 0, first.1⟩

def testStateCorrectness (r : UtfReducer) : Option UtfReducer := do
  let unit ← read r.units r.iter
  if isCodeUnitStart unit then some r else none

def gotoNextCodePoint (r : UtfReducer) : Option UtfReducer := do
  let pos := r.iter + (-r.state).toNat
  let length ← requiredLengthAt r.units pos
  let units ← copyForward (length - 1) r.units (pos + 1) pos
  return { r with units := units }

/-- `fill_right`: there is no other pin that has space. -/
def fillRight (_r : UtfReducer) : Option UtfReducer := none

/-- `operator++` -/
def increment (r : UtfReducer) : Option UtfReducer := do
  let r ← if r.state < 0 then r.gotoNextCodePoint else if 0 < r.state then r.fillRight else some r
  let iter ← nextChar r.units r.iter
  testStateCorrectness { r with iter := iter }

/-- Zero is written `n` times, always to the same place. -/
def zeroOut : ℕ → List UInt8 → ℕ → Option (List UInt8)
  | 0, units, _ => some units
  | n + 1, units, pos => if pos < units.length then zeroOut n (units.set pos 0) pos else none

def set (r : UtfReducer) (codePoint : ℕ) : Option UtfReducer := do
  if r.iter = r.units.length then none
  else
    let length ← requiredLengthAt r.units r.iter
    let state : ℤ := utf8LengthFromUtf32 codePoint - length
    if state = 0 then
      let units ← writeAll r.units r.iter (encode codePoint)
      testStateCorrectness { r with units := units, state := state }
    else if state < 0 then
      let units ← writeAll r.units r.iter (encode codePoint)
      let units ← zeroOut length units (r.iter + (encode codePoint).length)
      testStateCorrectness { r with units := units, state := state }
    else testStateCorrectness { r with codePoint := codePoint, state := state }

def fillLeft (r : UtfReducer) : Option UtfReducer := do
  let length ← requiredLengthAt r.units r.iter
  let cur := r.iter + length
  let pos := cur + (-r.state).toNat
  if pos ≤ r.units.length then
    let units ← copyForward (r.units.length - pos) r.units pos cur
    return { r with units := units, state := 0 }
  else none

def reduce (r : UtfReducer) : Option UtfReducer := do
  let r := if 0 < -r.state then { r with newend := r.units.length - (-r.state).toNat } else r
  if r.iter = r.units.length then none
  else if r.state = 0 then some r
  else if r.state < 0 then r.fillLeft
  else do
    let r ← r.fillRight
    let units ← writeAll r.units r.iter (encode r.codePoint)
    return { r with units := units, state := 0 }

/-- The units from `begin` to `end`. -/
def text (r : UtfReducer) : List UInt8 := r.units.take r.newend

def increments : ℕ → UtfReducer → Option UtfReducer
  | 0, r => some r
  | n + 1, r => do
      let r ← r.increment
      increments n r

end UtfReducer

/-! ## Units of a code point -/

section Units

variable {c : ℕ} {units : List UInt8}

theorem requiredLengthAt_encoded (h : Encoded c units) (before after : List UInt8) :
    requiredLengthAt (before ++ (units ++ after)) before.length = some units.length := by
  cases h with
  | one hc ha => simp [requiredLengthAt, requiredLengthOf, ha, single c hc]
  | @two a b x y hc hx hlow hy ha hb =>
      simp [requiredLengthAt, requiredLengthOf, ha, lead_two x hx]
  | @three a b d x y z hc hx hlow hy hz ha hb hd =>
      simp [requiredLengthAt, requiredLengthOf, ha, lead_three x hx]
  | @four a b d e x y z w hc hx hlow hy hz hw ha hb hd he =>
      simp [requiredLengthAt, requiredLengthOf, ha, lead_four x hx]

theorem testStateCorrectness_encoded (h : Encoded c units) {before after : List UInt8}
    {r : UtfReducer} (hunits : r.units = before ++ (units ++ after))
    (hiter : r.iter = before.length) : r.testStateCorrectness = some r := by
  rw [UtfReducer.testStateCorrectness, hunits, hiter]
  cases h with
  | one hc ha => simp [isCodeUnitStart, ha, single c hc]
  | @two a b x y hc hx hlow hy ha hb => simp [isCodeUnitStart, ha, lead_two x hx]
  | @three a b d x y z hc hx hlow hy hz ha hb hd => simp [isCodeUnitStart, ha, lead_three x hx]
  | @four a b d e x y z w hc hx hlow hy hz hw ha hb hd he =>
      simp [isCodeUnitStart, ha, lead_four x hx]

theorem length_encode (c : ℕ) : (encode c).length =
    if c < 0x80 then 1 else if c < 0x800 then 2 else if c < 0x10000 then 3 else 4 := by
  simp only [encode, append]
  split_ifs <;> rfl

theorem utf8LengthFromUtf32_eq (hc : IsScalar c) :
    utf8LengthFromUtf32 c = min (encode c).length 3 := by
  rw [utf8LengthFromUtf32, length_encode]
  rw [IsScalar] at hc
  split_ifs <;> omega

end Units

/-! ## One replacement -/

section Pin

variable {before after : List UInt8} {c cp : ℕ} {r : UtfReducer}

open UtfReducer

theorem increment_encoded {units : List UInt8} (h : Encoded c units) {c' : ℕ} {next : List UInt8}
    (h' : Encoded c' next) (after : List UInt8)
    (hunits : r.units = before ++ (units ++ (next ++ after)))
    (hiter : r.iter = before.length) (hstate : r.state = 0) :
    r.increment = some { r with iter := (before ++ units).length } := by
  have hnext : nextChar r.units r.iter = some (before ++ units).length := by
    rw [hunits, hiter, nextChar_encoded h, List.length_append]
  have hat : r.units = before ++ units ++ (next ++ after) := by rw [hunits, List.append_assoc]
  rw [increment, if_neg (by omega), if_neg (by omega)]
  simp only [bind, Option.bind_some, hnext]
  exact testStateCorrectness_encoded h' hat rfl

theorem increments_text (passed todo after : List ℕ)
    (h : ∀ d ∈ passed ++ (todo ++ c :: after), d < 0x110000)
    (hunits : r.units = text encode (passed ++ (todo ++ c :: after)))
    (hiter : r.iter = (text encode passed).length) (hstate : r.state = 0) :
    increments todo.length r =
      some { r with iter := (text encode (passed ++ todo)).length } := by
  induction todo generalizing passed r with
  | nil => simp [increments, ← hiter]
  | cons d todo ih =>
      have hd : Encoded d (encode d) := encoded_encode (h d (by simp))
      obtain ⟨e, rest, hrest⟩ : ∃ e rest, todo ++ c :: after = e :: rest := by
        cases todo <;> exact ⟨_, _, rfl⟩
      have he : Encoded e (encode e) := encoded_encode (h e (by simp [hrest]))
      have hstep : r.increment = some { r with iter := (text encode (passed ++ [d])).length } := by
        have hone : text encode (passed ++ [d]) = text encode passed ++ encode d := by simp
        rw [hone]
        refine increment_encoded hd he (text encode rest) ?_ hiter hstate
        rw [hunits, List.cons_append, hrest]
        simp
      have hrun := ih (passed ++ [d]) (r := { r with iter := (text encode (passed ++ [d])).length })
        (by simpa using h) (by simpa using hunits) rfl hstate
      simp only [List.length_cons, increments, hstep, bind, Option.bind_some]
      rw [hrun]
      simp

theorem zeroOut_gap (n : ℕ) (before rest : List UInt8) (u : UInt8) : ∃ v,
    zeroOut n (before ++ (u :: rest)) before.length = some (before ++ (v :: rest)) := by
  induction n generalizing u with
  | zero => exact ⟨u, rfl⟩
  | succ n ih =>
      obtain ⟨v, hv⟩ := ih 0
      refine ⟨v, ?_⟩
      rw [zeroOut, if_pos (by simp), ← hv]
      simp

theorem length_of_zeroOut {n pos : ℕ} {units units' : List UInt8}
    (h : zeroOut n units pos = some units') : units'.length = units.length := by
  induction n generalizing units with
  | zero =>
      cases h
      rfl
  | succ n ih =>
      rw [zeroOut] at h
      split at h
      · rw [ih h, List.length_set]
      · cases h

theorem set_gap (hc : c < 0x110000) (hcp : IsScalar cp) (hlow : cp < 0x10000)
    (hfits : (encode cp).length ≤ (encode c).length)
    (hunits : r.units = before ++ (encode c ++ after)) (hiter : r.iter = before.length) :
    ∃ gap : List UInt8,
    (encode cp).length + gap.length = (encode c).length ∧
      r.set cp = some { r with
        units := before ++ (encode cp ++ (gap ++ after)), state := -gap.length } := by
  have hlength : utf8LengthFromUtf32 cp = (encode cp).length := by
    rw [utf8LengthFromUtf32_eq hcp, length_encode]
    split_ifs <;> omega
  have hrequired : requiredLengthAt r.units r.iter = some (encode c).length := by
    rw [hunits, hiter, requiredLengthAt_encoded (encoded_encode hc)]
  have hin : r.iter ≠ r.units.length := by
    have hpos := List.length_pos_of_ne_nil (encode_ne_nil c)
    simp only [hunits, hiter, List.length_append]
    omega
  -- the old code point is the units written over and the ones left over
  obtain ⟨covered, gap, hsplit, hcovered⟩ : ∃ covered gap, encode c = covered ++ gap ∧
      covered.length = (encode cp).length :=
    ⟨_, _, (List.take_append_drop (encode cp).length (encode c)).symm, by simp [hfits]⟩
  have hgap : (encode cp).length + gap.length = (encode c).length := by
    rw [hsplit, List.length_append, hcovered]
  have hwrite : writeAll r.units r.iter (encode cp) =
      some (before ++ (encode cp ++ (gap ++ after))) := by
    rw [hunits, hiter, hsplit, List.append_assoc, writeAll_append hcovered]
  have hencoded : Encoded cp (encode cp) := encoded_encode (lt_of_isScalar hcp)
  have hdiff : (utf8LengthFromUtf32 cp : ℤ) - (encode c).length = -gap.length := by
    rw [hlength, ← hgap]
    push_cast
    omega
  rw [UtfReducer.set, if_neg hin]
  simp only [hrequired, bind, Option.bind_some, hdiff, hwrite]
  cases gap with
  | nil =>
      refine ⟨[], hgap, ?_⟩
      rw [if_pos (by rfl)]
      exact testStateCorrectness_encoded hencoded rfl hiter
  | cons u gap =>
      obtain ⟨v, hzero⟩ :=
        zeroOut_gap (encode c).length (before ++ encode cp) (gap ++ after) u
      refine ⟨v :: gap, hgap, ?_⟩
      have hneg : ((-((u :: gap).length : ℕ) : ℤ)) < 0 := by
        rw [List.length_cons]
        omega
      have hzeroOut : zeroOut (encode c).length (before ++ (encode cp ++ (u :: gap ++ after)))
          (r.iter + (encode cp).length) =
            some (before ++ (encode cp ++ (v :: gap ++ after))) := by
        rw [hiter, ← List.length_append]
        simpa using hzero
      rw [if_neg (Int.ne_of_lt hneg), if_pos hneg, hzeroOut]
      exact testStateCorrectness_encoded hencoded rfl hiter

theorem reduce_of_neg (hin : r.iter ≠ r.units.length) (hneg : r.state < 0) :
    r.reduce = fillLeft { r with newend := r.units.length - (-r.state).toNat } := by
  have hroom : 0 < -r.state := by omega
  simp only [reduce, if_pos hroom, if_neg hin, if_neg (Int.ne_of_lt hneg), if_pos hneg]

theorem reduce_gap (hcp : IsScalar cp) (gap : List UInt8)
    (hunits : r.units = before ++ (encode cp ++ (gap ++ after))) (hiter : r.iter = before.length)
    (hstate : r.state = -gap.length) (hend : r.newend = r.units.length) : ∃ r',
    r.reduce = some r' ∧ r'.text = before ++ (encode cp ++ after) := by
  have hpos := List.length_pos_of_ne_nil (encode_ne_nil cp)
  have hlength : r.units.length =
      before.length + ((encode cp).length + (gap.length + after.length)) := by
    rw [hunits]
    simp
  have hin : r.iter ≠ r.units.length := by omega
  cases gap with
  | nil =>
      refine ⟨r, ?_, ?_⟩
      · have hzero : r.state = 0 := by simpa using hstate
        simp [reduce, hzero, hin]
      · rw [UtfReducer.text, hend, List.take_length, hunits, List.nil_append]
  | cons u gap =>
      have hneg : r.state < 0 := by
        rw [hstate, List.length_cons]
        omega
      have hleft : (-r.state).toNat = (u :: gap).length := by
        rw [hstate]
        simp
      obtain ⟨rest, hrest, hcopy⟩ :=
        InPlace.copyForward_gap (before ++ encode cp) (u :: gap) after
      refine ⟨{ r with
        units := before ++ encode cp ++ (after ++ rest)
        newend := r.units.length - (-r.state).toNat
        state := 0 }, ?_, ?_⟩
      · have hrequired : requiredLengthAt r.units r.iter = some (encode cp).length := by
          rw [hunits, hiter, requiredLengthAt_encoded (encoded_encode (lt_of_isScalar hcp))]
        have hcur : r.iter + (encode cp).length = (before ++ encode cp).length := by
          rw [hiter, List.length_append]
        have hbound : (before ++ encode cp).length + (u :: gap).length ≤ r.units.length := by
          rw [hlength, List.length_append]
          omega
        have hcount : r.units.length - ((before ++ encode cp).length + (u :: gap).length) =
            after.length := by
          rw [hlength, List.length_append]
          omega
        have hsame : r.units = before ++ encode cp ++ (u :: gap ++ after) := by
          rw [hunits, List.append_assoc]
        rw [← hsame] at hcopy
        simp only [reduce_of_neg hin hneg, fillLeft, hrequired, bind, Option.bind_some, hcur,
          hleft, if_pos hbound, hcount, hcopy]
        rfl
      · have hkept : r.units.length - (-r.state).toNat =
            (before ++ encode cp ++ after).length := by
          rw [hleft, hlength, List.length_append, List.length_append]
          omega
        rw [UtfReducer.text, hkept, ← List.append_assoc _ after rest, List.take_left,
          List.append_assoc]

theorem state_of_set (hc : c < 0x110000) (hcp : IsScalar cp) (hhigh : 0x10000 ≤ cp)
    (hfits : (encode cp).length ≤ (encode c).length)
    (hunits : r.units = before ++ (encode c ++ after)) (hiter : r.iter = before.length)
    {r' : UtfReducer} (h : r.set cp = some r') :
    r'.state = -1 ∧ r'.units.length = r.units.length ∧ r'.iter = r.iter := by
  have hfour : (encode cp).length = 4 := by
    rw [length_encode]
    split_ifs <;> omega
  have hcfour : (encode c).length = 4 := by
    have hle := hfits
    rw [hfour, length_encode] at hle
    rw [length_encode]
    split_ifs at hle ⊢ <;> omega
  have hstate : (utf8LengthFromUtf32 cp : ℤ) - (encode c).length = -1 := by
    rw [utf8LengthFromUtf32_eq hcp, hfour, hcfour]
    rfl
  have hrequired : requiredLengthAt r.units r.iter = some (encode c).length := by
    rw [hunits, hiter, requiredLengthAt_encoded (encoded_encode hc)]
  have hwrite : writeAll r.units r.iter (encode cp) =
      some (before ++ (encode cp ++ after)) := by
    rw [hunits, hiter, writeAll_append (hcfour.trans hfour.symm)]
  rw [UtfReducer.set] at h
  split at h
  · cases h
  simp only [hrequired, bind, Option.bind_some, hstate, hwrite] at h
  rw [if_neg (by decide), if_pos (by decide)] at h
  obtain ⟨units, hzero, htest⟩ := Option.bind_eq_some_iff.1 h
  have hlength := length_of_zeroOut hzero
  simp only [testStateCorrectness, bind] at htest
  obtain ⟨unit, -, hr⟩ := Option.bind_eq_some_iff.1 htest
  split at hr
  · cases hr
    refine ⟨rfl, hlength.trans ?_, rfl⟩
    simp only [hunits, List.length_append, hfour, hcfour]
  · cases hr

theorem newend_of_fillLeft {r' : UtfReducer} (h : r.fillLeft = some r') :
    r'.newend = r.newend := by
  obtain ⟨length, -, h⟩ := Option.bind_eq_some_iff.1 h
  dsimp only at h
  split at h
  · obtain ⟨units, -, h⟩ := Option.bind_eq_some_iff.1 h
    cases h
    rfl
  · cases h

theorem length_of_reduce (hin : r.iter ≠ r.units.length) (hstate : r.state = -1)
    {r' : UtfReducer} (h : r.reduce = some r') : r'.text.length ≤ r.units.length - 1 := by
  rw [reduce_of_neg hin (by omega)] at h
  have hend := newend_of_fillLeft h
  rw [hstate] at hend
  rw [UtfReducer.text, hend]
  exact List.length_take_le _ _

end Pin

/-- A text, the code point under the pin and the one it is replaced by, which is no longer. -/
structure Replacement where
  before : List ℕ
  current : ℕ
  after : List ℕ
  codePoint : ℕ
  scalars : ∀ c ∈ before ++ current :: after, IsScalar c
  scalar : IsScalar codePoint
  fits : (encode codePoint).length ≤ (encode current).length

namespace Replacement

/-- The reducer after the increments, `set` and `reduce` -/
def run (x : Replacement) : Option UtfReducer := do
  let r ← UtfReducer.ofUnits (text encode (x.before ++ x.current :: x.after))
  let r ← UtfReducer.increments x.before.length r
  let r ← r.set x.codePoint
  r.reduce

/-- One code point of the text is another one, and the others are as they were. -/
def ReplacesRight (x : Replacement) : Prop :=
  ∃ r, x.run = some r ∧ r.text = text encode (x.before ++ x.codePoint :: x.after)

/-- The pin is at the code point that is to be replaced. -/
structure PinnedAt (x : Replacement) (r : UtfReducer) : Prop where
  units : r.units = text encode x.before ++ (encode x.current ++ text encode x.after)
  iter : r.iter = (text encode x.before).length
  state : r.state = 0
  newend : r.newend = r.units.length

theorem current_lt (x : Replacement) : x.current < 0x110000 :=
  lt_of_isScalar (x.scalars x.current (by simp))

theorem exists_pinnedAt (x : Replacement) : ∃ r, x.PinnedAt r ∧
    x.run = (r.set x.codePoint).bind UtfReducer.reduce := by
  obtain ⟨d, rest, hfirst⟩ : ∃ d rest, x.before ++ x.current :: x.after = d :: rest := by
    cases x.before <;> exact ⟨_, _, rfl⟩
  have hd : d < 0x110000 := lt_of_isScalar (x.scalars d (by simp [hfirst]))
  have hstart : UtfReducer.ofUnits (text encode (x.before ++ x.current :: x.after)) =
      some ⟨text encode (x.before ++ x.current :: x.after),
        (text encode (x.before ++ x.current :: x.after)).length, 0, 0, d⟩ := by
    have hnext := nextCodePoint_encoded (encoded_encode hd) [] (text encode rest)
    rw [List.nil_append, List.length_nil] at hnext
    simp only [UtfReducer.ofUnits, hfirst, text_cons, hnext, bind, Option.bind_some]
    rfl
  have hsteps := increments_text (r := ⟨text encode (x.before ++ x.current :: x.after),
      (text encode (x.before ++ x.current :: x.after)).length, 0, 0, d⟩) [] x.before x.after
    (fun c hc => lt_of_isScalar (x.scalars c hc)) rfl rfl rfl
  refine ⟨⟨text encode (x.before ++ x.current :: x.after),
    (text encode (x.before ++ x.current :: x.after)).length, (text encode x.before).length, 0, d⟩,
    ⟨by simp, rfl, rfl, rfl⟩, ?_⟩
  simp only [run, hstart, bind, Option.bind_some, hsteps]
  rfl

/-- A code point is replaced as it should be if and only if it has less than four units. -/
theorem replacesRight_iff (x : Replacement) : x.ReplacesRight ↔ x.codePoint < 0x10000 := by
  obtain ⟨r, hr, hrun⟩ := x.exists_pinnedAt
  constructor
  · rintro ⟨r', hr', htext⟩
    by_contra hhigh
    rw [hrun] at hr'
    obtain ⟨r₁, hset, hreduce⟩ := Option.bind_eq_some_iff.1 hr'
    obtain ⟨hstate, hlength, hiter⟩ :=
      state_of_set x.current_lt x.scalar (not_lt.1 hhigh) x.fits hr.units hr.iter hset
    have hpos := List.length_pos_of_ne_nil (encode_ne_nil x.current)
    have hin : r₁.iter ≠ r₁.units.length := by
      rw [hiter, hlength, hr.iter, hr.units]
      simp only [List.length_append]
      omega
    have hshort := length_of_reduce hin hstate hreduce
    have hcp : (encode x.codePoint).length = 4 := by
      rw [length_encode]
      split_ifs <;> omega
    have hc : (encode x.current).length ≤ 4 := by
      rw [length_encode]
      split_ifs <;> omega
    -- the end has moved, and the length of the text should not have
    rw [htext, hlength, hr.units] at hshort
    simp only [text_append, text_cons, List.length_append] at hshort
    omega
  · intro hlow
    obtain ⟨gap, hgap, hset⟩ :=
      set_gap x.current_lt x.scalar hlow x.fits hr.units hr.iter
    have hend : r.newend = (text encode x.before ++
        (encode x.codePoint ++ (gap ++ text encode x.after))).length := by
      rw [hr.newend, hr.units]
      simp only [List.length_append]
      omega
    obtain ⟨r', hreduce, htext⟩ := reduce_gap (r := { r with
        units := text encode x.before ++ (encode x.codePoint ++ (gap ++ text encode x.after))
        state := -gap.length }) x.scalar gap rfl hr.iter rfl hend
    refine ⟨r', ?_, ?_⟩
    · rw [hrun, hset, Option.bind_some, hreduce]
    · rw [htext]
      simp

/-- The code point of four units under the pin becomes another one of four units. -/
theorem not_replacesRight : ¬ ∀ x : Replacement, x.ReplacesRight := by
  intro h
  have hlow := (replacesRight_iff ⟨[], 0x10348, [0x24], 0x1F600, by decide, by decide,
    by decide⟩).1 (h _)
  exact absurd hlow (by decide)

end Replacement

end Webpp.Unicode.Utf8
