import Mathlib.Data.List.Induction
import Webpp.Foundation.Run
import Webpp.Http.ResponseCookie

/-!
# The age and the date of a response cookie

Whether a max-age is set is read off the field, which has the least `long` where none is.
`has_max_age` tests for that value, and so it says the opposite. A cookie is then asked for its
date when it has an age, and for its age when it has none.

Dates are counted in ticks of the clock, and each call is made at some time.
-/

namespace Webpp.Http

open Loop Run

/-! ## The methods -/

/-- A clock with a positive number of ticks per second. -/
structure CookieClock where
  ticksPerSecond : ℤ
  ticks_pos : 0 < ticksPerSecond

def CookieClock.yearDur (k : CookieClock) (years : ℤ) : ℤ := years * 31556952 * k.ticksPerSecond

theorem CookieClock.yearDur_pos (k : CookieClock) {years : ℤ} (h : 0 < years) :
    0 < k.yearDur years :=
  Int.mul_pos (Int.mul_pos h (by decide)) k.ticks_pos

def hasMaxAge (c : ResponseCookie ℤ) : Bool := c.maxAge == maxAgeExistenceValue

def isRemoved (now : ℤ) (c : ResponseCookie ℤ) : Bool :=
  if hasMaxAge c then decide (c.maxAge ≤ 0) else c.expires.any (fun date => decide (date < now))

def expiresIn (now dur : ℤ) (c : ResponseCookie ℤ) : ResponseCookie ℤ :=
  { c with expires := some (now + dur) }

def remove (k : CookieClock) (now : ℤ) (iRemove : Bool) (c : ResponseCookie ℤ) :
    ResponseCookie ℤ :=
  let c :=
    if iRemove then { c with expires := some (now - k.yearDur 10) }
    else if isRemoved now c then { c with expires := some (now + k.yearDur 1) }
    else c
  { c with maxAge := 0 }

/-! ## Calls -/

/-- `trim_`, `ltrim_` and `rtrim_`. -/
inductive CookieTrim where
  | trim
  | ltrim
  | rtrim
  deriving DecidableEq, Repr

def CookieTrim.run (str : List Char) : CookieTrim → List Char
  | trim => Http.trim str
  | ltrim => Http.ltrim str
  | rtrim => Http.rtrim str

/-- What changes a cookie: a method, or an attribute that `parse_set_cookie` reads, with
whether all of the text is valid so far. -/
inductive CookieCall where
  | set (s : CookieSetter ℤ)
  | trim (how : CookieTrim) (f : CookieText)
  | readAttribute (key value : List Char) (valid : Bool)
  | expiresIn (dur : ℤ)
  | remove (iRemove : Bool)

/-- The cookie after a call at the time `call.1`. -/
def cookieStep (T : CookieTexts ℤ) (k : CookieClock) (c : ResponseCookie ℤ)
    (call : ℤ × CookieCall) : ResponseCookie ℤ :=
  match call.2 with
  | .set s => s.apply c
  | .trim how f => f.set c (how.run (f.get c))
  | .readAttribute key value valid => (setAttribute T key ⟨value, valid, c⟩).cookie
  | .expiresIn dur => expiresIn call.1 dur c
  | .remove iRemove => remove k call.1 iRemove c

/-- A new cookie after the calls. -/
def cookieAfter (T : CookieTexts ℤ) (k : CookieClock) (calls : List (ℤ × CookieCall)) :
    ResponseCookie ℤ :=
  run (cookieStep T k) {} calls

/-- What was done last with the age. -/
inductive AgeHistory where
  | unset
  | set (age : ℤ)
  | removed
  deriving DecidableEq, Repr

namespace AgeHistory

def step (g : AgeHistory) : CookieCall → AgeHistory
  | .set (.maxAge age) => .set age
  | .readAttribute key value _ => if iequalsSl key maxAgeKey then .set (toLong value) else g
  | .remove _ => .removed
  | _ => g

/-- The age that is set, if there is one. -/
def age : AgeHistory → Option ℤ
  | set age => some age
  | _ => none

/-- The value of the field. -/
def field : AgeHistory → ℤ
  | unset => maxAgeExistenceValue
  | set age => age
  | removed => 0

end AgeHistory

def ageHistory (calls : List (ℤ × CookieCall)) : AgeHistory :=
  run (fun g call => g.step call.2) .unset calls

/-- The age is known to be there or not, a cookie is removed when its age or else its date
says so, and `remove` removes it or brings it back. -/
structure AgesRight (T : CookieTexts ℤ) (k : CookieClock) (calls : List (ℤ × CookieCall)) :
    Prop where
  hasMaxAge : hasMaxAge (cookieAfter T k calls) = true ↔ (ageHistory calls).age.isSome = true
  isRemoved : ∀ now, isRemoved now (cookieAfter T k calls) = true ↔
    match (ageHistory calls).age with
    | some age => age ≤ 0
    | none => ∃ date, (cookieAfter T k calls).expires = some date ∧ date < now
  remove : ∀ before now iRemove, calls = before ++ [(now, .remove iRemove)] →
    Http.isRemoved now (cookieAfter T k calls) = iRemove

/-! ## The field of the age -/

variable {T : CookieTexts ℤ} {k : CookieClock}

theorem emplaceAttr_maxAge (key value : List Char) (c : ResponseCookie ℤ) :
    (emplaceAttr key value c).maxAge = c.maxAge := by
  rw [emplaceAttr]
  split
  · rfl
  · rfl

theorem setSameSite_maxAge (key : List Char) (s : AttributeState ℤ) :
    (setSameSite key s).cookie.maxAge = s.cookie.maxAge := by
  rw [setSameSite]
  simp only
  repeat' split
  all_goals first | rfl | exact emplaceAttr_maxAge _ _ _

theorem setVersion_maxAge (key : List Char) (s : AttributeState ℤ) :
    (setVersion key s).cookie.maxAge = s.cookie.maxAge := by
  rw [setVersion]
  simp only
  repeat' split
  all_goals first | rfl | exact emplaceAttr_maxAge _ _ _

/-- Of all attributes, only `max-age` writes the field. -/
theorem setAttribute_maxAge (key : List Char) (s : AttributeState ℤ) :
    (setAttribute T key s).cookie.maxAge =
      if iequalsSl key maxAgeKey = true then toLong s.value else s.cookie.maxAge := by
  by_cases hkey : iequalsSl key maxAgeKey = true
  · have hhead : key.head?.map toLowerCopy = some 'm' := by
      rw [iequalsSl, beq_iff_eq] at hkey
      rw [← List.head?_map, hkey]
      rfl
    rw [if_pos hkey, setAttribute, hhead]
    simp only
    rw [show iequalsSl key ['m', 'a', 'x', '-', 'a', 'g', 'e'] = true from hkey]
    rfl
  · have hnot : ¬ iequalsSl key ['m', 'a', 'x', '-', 'a', 'g', 'e'] = true := hkey
    rw [if_neg hkey, setAttribute]
    simp only [if_neg hnot]
    repeat' split
    all_goals first
      | rfl
      | exact emplaceAttr_maxAge _ _ _
      | exact setSameSite_maxAge _ _
      | exact setVersion_maxAge _ _

theorem cookieStep_maxAge {c : ResponseCookie ℤ} {g : AgeHistory} (h : c.maxAge = g.field)
    (call : ℤ × CookieCall) : (cookieStep T k c call).maxAge = (g.step call.2).field := by
  obtain ⟨now, call⟩ := call
  cases call with
  | set s =>
      cases s with
      | maxAge v => rfl
      | text f v => exact (f.set_maxAge c v).trans h
      | _ => exact h
  | trim how f => exact (f.set_maxAge c _).trans h
  | readAttribute key value valid =>
      rw [cookieStep, AgeHistory.step]
      simp only [setAttribute_maxAge]
      split
      · rfl
      · exact h
  | expiresIn dur => exact h
  | remove iRemove => rfl

theorem cookieAfter_maxAge (calls : List (ℤ × CookieCall)) :
    (cookieAfter T k calls).maxAge = (ageHistory calls).field := by
  induction calls using List.reverseRecOn with
  | nil => rfl
  | append_singleton calls call ih =>
      rw [cookieAfter, ageHistory, run_append, run_append]
      exact cookieStep_maxAge ih call

/-! ## Removing -/

theorem isRemoved_of_not_hasMaxAge {c : ResponseCookie ℤ} (h : hasMaxAge c = false) (now : ℤ) :
    isRemoved now c = true ↔ ∃ date, c.expires = some date ∧ date < now := by
  rw [isRemoved, if_neg (by rw [h]; exact Bool.false_ne_true), Option.any_eq_true]
  simp only [decide_eq_true_eq]

theorem hasMaxAge_remove (now : ℤ) (iRemove : Bool) (c : ResponseCookie ℤ) :
    hasMaxAge (remove k now iRemove c) = false := rfl

theorem isRemoved_of_hasMaxAge {c : ResponseCookie ℤ} (h : hasMaxAge c = true) (now : ℤ) :
    isRemoved now c = true := by
  have hage : c.maxAge = maxAgeExistenceValue := eq_of_beq h
  rw [isRemoved, if_pos h, hage]
  rfl

/-- `remove(true)` puts the date into the past. -/
theorem isRemoved_remove_true (now : ℤ) (c : ResponseCookie ℤ) :
    isRemoved now (remove k now true c) = true := by
  rw [isRemoved_of_not_hasMaxAge (hasMaxAge_remove now true c)]
  exact ⟨now - k.yearDur 10, rfl, Int.sub_lt_self now (k.yearDur_pos (by decide))⟩

/-- `remove(false)` leaves no date in the past. -/
theorem isRemoved_remove_false (now : ℤ) (c : ResponseCookie ℤ) :
    isRemoved now (remove k now false c) = false := by
  rw [Bool.eq_false_iff, ne_eq, isRemoved_of_not_hasMaxAge (hasMaxAge_remove now false c)]
  rintro ⟨date, hdate, hlt⟩
  rw [remove] at hdate
  simp only [Bool.false_eq_true, if_false] at hdate
  by_cases hremoved : isRemoved now c = true
  · rw [if_pos hremoved] at hdate
    have hyear : 0 < k.yearDur 1 := k.yearDur_pos (by decide)
    have heq : now + k.yearDur 1 = date := Option.some_inj.mp hdate
    omega
  · rw [if_neg hremoved] at hdate
    -- a cookie that is not removed has no sentinel, so its date was asked for
    have hage : hasMaxAge c = false :=
      Bool.eq_false_iff.mpr fun h => hremoved (isRemoved_of_hasMaxAge h now)
    exact hremoved ((isRemoved_of_not_hasMaxAge hage now).mpr ⟨date, hdate, hlt⟩)

/-! ## All calls -/

/-- The ages are right exactly when the last call for the age was `remove`, or set the value
that stands for no age. -/
theorem agesRight_iff (T : CookieTexts ℤ) (k : CookieClock) (calls : List (ℤ × CookieCall)) :
    AgesRight T k calls ↔
      ageHistory calls = .removed ∨ ageHistory calls = .set maxAgeExistenceValue := by
  have hfield : hasMaxAge (cookieAfter T k calls) =
      ((ageHistory calls).field == maxAgeExistenceValue) := by
    rw [hasMaxAge, cookieAfter_maxAge]
  constructor
  · intro h
    have hage := h.hasMaxAge
    rw [hfield] at hage
    cases hg : ageHistory calls with
    | unset =>
        rw [hg] at hage
        exact absurd (hage.mp rfl) Bool.false_ne_true
    | set age =>
        rw [hg] at hage
        exact .inr (congrArg AgeHistory.set (eq_of_beq (hage.mpr rfl)))
    | removed => exact .inl rfl
  · intro h
    have hremove : ∀ before now iRemove, calls = before ++ [(now, .remove iRemove)] →
        isRemoved now (cookieAfter T k calls) = iRemove := by
      rintro before now iRemove rfl
      rw [cookieAfter, run_append]
      cases iRemove with
      | true => exact isRemoved_remove_true now _
      | false => exact isRemoved_remove_false now _
    rcases h with hg | hg
    · have hnot : hasMaxAge (cookieAfter T k calls) = false := by
        rw [hfield, hg]
        rfl
      refine ⟨?_, fun now => ?_, hremove⟩
      · rw [hnot, hg]
        exact Iff.rfl
      · rw [isRemoved_of_not_hasMaxAge hnot, hg]
        exact Iff.rfl
    · have hhas : hasMaxAge (cookieAfter T k calls) = true := by
        rw [hfield, hg]
        exact beq_self_eq_true _
      refine ⟨?_, fun now => ?_, hremove⟩
      · rw [hhas, hg]
        exact iff_of_true rfl rfl
      · rw [isRemoved_of_hasMaxAge hhas, hg]
        exact iff_of_true rfl (show maxAgeExistenceValue ≤ 0 by decide)

/-- A new cookie is removed. -/
theorem not_agesRight_new : ¬ ∀ T k calls, AgesRight T k calls := by
  intro h
  let T : CookieTexts ℤ := ⟨fun _ => 0, fun _ => [], fun _ => [], fun value => value⟩
  have hnew := (h T ⟨1, by decide⟩ []).isRemoved 0
  obtain ⟨date, hdate, -⟩ := hnew.mp rfl
  cases hdate

end Webpp.Http
