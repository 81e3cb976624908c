import Webpp.Storage.Cache
import Mathlib.Logic.Function.Iterate

/-!
# What a read of the cache returns

The cache is compared with a plain map: `Observed.stored` holds the value last
stored under each key. `MemoryGate.get` moves the value out of the entry it
finds, so a key that `get` has found `n` times since its last write holds the
stored value moved from `n` times (`ValuesKept`). A run therefore reads what was
stored exactly as long as the moves made so far have changed nothing.
-/

namespace Webpp.Storage

namespace Observed

variable {K V : Type*} [DecidableEq K] [Movable V] {o : Observed K V}

/-- The value found by a call is the one most recently stored under its key. -/
def ReadsLatest (o : Observed K V) (a : Call K V) : Prop :=
  ∀ v, a.value o.cache = some v → o.stored a.key = some v

/-- A read of a key in the cache comes before any `get` has changed, by moving
from it, the value stored under that key. -/
def Intact (o : Observed K V) : Call K V → Prop
  | .set _ _ => True
  | .get key | .getPtr key =>
      o.cache.Present key → ∀ v, o.stored key = some v →
        Movable.movedFrom^[o.moves key] v = v

/-- Every entry holds what was stored, moved from once for each `get` since. -/
def ValuesKept (o : Observed K V) : Prop :=
  ∀ k p, o.cache.find k = some p →
    ∃ v, o.stored k = some v ∧ p.2 = Movable.movedFrom^[o.moves k] v

theorem valuesKept_new (maxSize : SizeT) : (new maxSize : Observed K V).ValuesKept := by
  intro k p h
  simp [new] at h

theorem valuesKept_set (h : o.ValuesKept) (key : K) (value : V) :
    (o.call (.set key value)).ValuesKept := by
  intro k p hp
  rw [call_cache, Call.apply, LruStrategy.find_set, Option.filter_eq_some_iff] at hp
  by_cases hk : k = key
  · subst hk
    have hval : p.2 = value := by simpa using (congrArg Prod.snd (by simpa using hp.1)).symm
    exact ⟨value, by simp [call], by simp [call, hval]⟩
  · have hfind : o.cache.find k = some p := by simpa [hk] using hp.1
    simpa [call, hk] using h k p hfind

theorem valuesKept_get (h : o.ValuesKept) (key : K) :
    (o.call (.get key)).ValuesKept := by
  intro k p hp
  rw [call_cache, Call.apply, LruStrategy.find_get] at hp
  cases hkey : o.cache.find key with
  | none =>
      have hne : k ≠ key := by
        rintro rfl
        simp [hkey] at hp
      simpa [call, hkey] using h k p (by simpa [hne] using hp)
  | some q =>
      by_cases hk : k = key
      · subst hk
        obtain ⟨v, hv, hq⟩ := h k q hkey
        obtain rfl : (o.cache.nextUsage, Movable.movedFrom q.2) = p := by
          simpa [hkey] using hp
        exact ⟨v, by simpa [call, hkey] using hv, by
          simp [call, hkey, hq, Function.iterate_succ_apply']⟩
      · simpa [call, hkey, hk] using h k p (by simpa [hk] using hp)

theorem valuesKept_getPtr (h : o.ValuesKept) (key : K) :
    (o.call (.getPtr key)).ValuesKept := by
  have hstored : (o.call (.getPtr key)).stored = o.stored := by
    rw [call, apply_ite Observed.stored, ite_self]
  have hmoves : (o.call (.getPtr key)).moves = o.moves := by
    rw [call, apply_ite Observed.moves, ite_self]
  intro k p hp
  rw [call_cache, Call.apply, LruStrategy.find_getPtr] at hp
  rw [hstored, hmoves]
  by_cases hk : k = key
  · subst hk
    rw [if_pos rfl, Option.map_eq_some_iff] at hp
    obtain ⟨q, hq, rfl⟩ := hp
    exact h k q hq
  · exact h k p (by simpa [hk] using hp)

theorem valuesKept_call (h : o.ValuesKept) (a : Call K V) :
    (o.call a).ValuesKept := by
  cases a with
  | set key value => exact valuesKept_set h key value
  | get key => exact valuesKept_get h key
  | getPtr key => exact valuesKept_getPtr h key

/-- Where the entries hold the moved-from values, a call reads the stored value
exactly when the moves have not changed it. -/
theorem readsLatest_iff_intact (h : o.ValuesKept) (a : Call K V) :
    o.ReadsLatest a ↔ o.Intact a := by
  have hread : ∀ key, (∀ v, (o.cache.find key).map Prod.snd = some v →
        o.stored key = some v) ↔
      (o.cache.Present key → ∀ v, o.stored key = some v →
        Movable.movedFrom^[o.moves key] v = v) := by
    intro key
    cases hkey : o.cache.find key with
    | none => simp [LruStrategy.Present, hkey]
    | some p =>
        obtain ⟨v, hv, hp⟩ := h key p hkey
        have hpres : o.cache.Present key := ⟨p, hkey⟩
        simp [hv, hpres, hp, eq_comm]
  cases a with
  | set key value => simp [ReadsLatest, Intact, Call.value]
  | get key =>
      simpa [ReadsLatest, Intact, Call.value, Call.key, LruStrategy.get_fst] using hread key
  | getPtr key =>
      simpa [ReadsLatest, Intact, Call.value, Call.key, LruStrategy.getPtr_fst] using hread key

end Observed

open Observed

/-- In a run of operations on a new cache, every read of a key returns the value
most recently stored under it exactly when every read comes before a `get` (or an
`operator[]` or `emplace_get`) has changed that value by moving from it. -/
theorem trace_readsLatest_iff {K V : Type*} [DecidableEq K] [Movable V]
    (maxSize : SizeT) (ops : List (Op K V)) :
    Run.AtEach call ReadsLatest (new maxSize) (trace (.new maxSize) ops) ↔
      Run.AtEach call Intact (new maxSize) (trace (.new maxSize) ops) :=
  Run.atEach_iff_of_invariant ValuesKept (fun _ a h _ => valuesKept_call h a)
    (fun _ a h => readsLatest_iff_intact h a) (valuesKept_new maxSize) _

/-- The second of two reads of a string finds it empty. -/
theorem trace_not_readsLatest :
    ¬ ∀ (maxSize : SizeT) (ops : List (Op Int String)),
      Run.AtEach call ReadsLatest (new maxSize) (trace (.new maxSize) ops) := by
  intro h
  have hrun := h 3 [.set 1 "one", .get 1, .get 1]
  have hlast := hrun.2.2.1 "" (by decide)
  exact absurd hlast (by decide)

end Webpp.Storage
