import Webpp.Foundation.Run
import Webpp.Foundation.Recency
import Webpp.Storage.LruCache
import Mathlib.Logic.Function.Basic

/-!
# The cache over the LRU strategy

The members of `cache` are written over the calls of the strategy, as the
source has them. `Op.calls` lists the calls that one operation makes, so that a
run of operations is a run of calls (`run_trace`), and a fact about every run of
calls is one about every run of operations.

`Observed` carries, next to the cache, what an observer of the calls knows: the
value last stored under each key, how often that value has been moved out by
`get` since, and the keys in order of last use.
-/

namespace Webpp.Storage

variable {K V : Type*} [DecidableEq K] [Movable V]

/-- A key with the value read for it; the cache it points to is the one at hand. -/
structure CacheResult (K V : Type*) where
  key : K
  val : Option V

namespace LruStrategy

/-- `operator[]`. -/
def index (c : LruStrategy K V) (key : K) : CacheResult K V × LruStrategy K V :=
  (⟨key, (c.get key).1⟩, (c.get key).2)

def getOr (c : LruStrategy K V) (key : K) (defaultValue : V) : V × LruStrategy K V :=
  ((c.get key).1.getD defaultValue, (c.get key).2)

/-- Get the value if it exists, if not, store the given one and return it. -/
def emplaceGet (c : LruStrategy K V) (key : K) (arg : V) :
    CacheResult K V × LruStrategy K V :=
  match c.get key with
  | (some val, c') => (⟨key, some val⟩, c')
  | (none, c') => (⟨key, some arg⟩, c'.set key arg)

def emplaceGetPtr (c : LruStrategy K V) (key : K) (arg : V) :
    Option V × LruStrategy K V :=
  match c.getPtr key with
  | (some val, c') => (some val, c')
  | (none, c') => (c'.set key arg).getPtr key

omit [Movable V] in
@[simp] theorem emplaceGetPtr_maxSize (c : LruStrategy K V) (key : K) (arg : V) :
    (c.emplaceGetPtr key arg).2.maxSize = c.maxSize := by
  rw [LruStrategy.emplaceGetPtr]
  cases hptr : c.getPtr key with
  | mk found c' =>
      have hc' : c'.maxSize = c.maxSize := by
        have hmax := getPtr_maxSize c key
        rwa [hptr] at hmax
      cases found with
      | some value => exact hc'
      | none =>
          dsimp only
          rw [getPtr_maxSize, set_maxSize, hc']

variable {P : K → V → Prop} {c : LruStrategy K V}

omit [Movable V] in
/-- `emplace_get_ptr` points to an entry: one that was there, or the new one. -/
theorem Entries.emplaceGetPtr (h : c.Entries P) (hmax : 0 < c.maxSize) {key : K} {arg : V}
    (hP : P key arg) :
    (c.emplaceGetPtr key arg).2.Entries P ∧
      ∃ value, (c.emplaceGetPtr key arg).1 = some value ∧ P key value ∧
        ∃ tick, (c.emplaceGetPtr key arg).2.find key = some (tick, value) := by
  rw [LruStrategy.emplaceGetPtr]
  cases hptr : c.getPtr key with
  | mk found c' =>
      have hfound : (c.getPtr key).1 = found := by rw [hptr]
      have hc' : (c.getPtr key).2 = c' := by rw [hptr]
      cases found with
      | some value =>
          dsimp only
          have hfind := hfound
          rw [getPtr_fst, Option.map_eq_some_iff] at hfind
          obtain ⟨p, hp, rfl⟩ := hfind
          refine ⟨hc' ▸ h.getPtr key, p.2, rfl, h key p hp, c.nextUsage, ?_⟩
          rw [← hc', find_getPtr, if_pos rfl, hp, Option.map_some]
      | none =>
          dsimp only
          have hmax' : 0 < c'.maxSize := by
            rw [← hc', getPtr_maxSize]
            exact hmax
          have hset : (c'.set key arg).Entries P := (hc' ▸ h.getPtr key : c'.Entries P).set hP
          have hfind := exists_find_set hmax' key arg
          refine ⟨hset.getPtr key, arg, ?_, hP, (c'.set key arg).nextUsage, ?_⟩
          · rw [getPtr_fst, hfind, Option.map_some]
          · rw [find_getPtr, if_pos rfl, hfind, Option.map_some]

end LruStrategy

/-- `operator=` of a result stores the new value under its key. -/
def CacheResult.assign (r : CacheResult K V) (c : LruStrategy K V) (newVal : V) :
    LruStrategy K V :=
  c.set r.key newVal

/-- `save` stores the value of the result; without one `value()` throws before
the cache is reached. -/
def CacheResult.save (r : CacheResult K V) (c : LruStrategy K V) : LruStrategy K V :=
  match r.val with
  | some val => c.set r.key val
  | none => c

/-- The operations on a cache. -/
inductive Op (K V : Type*) where
  | set (key : K) (value : V)
  | get (key : K)
  | getOr (key : K) (defaultValue : V)
  | getPtr (key : K)
  | index (key : K)
  | emplaceGet (key : K) (arg : V)
  | emplaceGetPtr (key : K) (arg : V)
  | assign (result : CacheResult K V) (newVal : V)
  | save (result : CacheResult K V)

/-- The value an operation returns, and the cache after it. -/
def Op.perform (c : LruStrategy K V) : Op K V → Option V × LruStrategy K V
  | .set key value => (none, c.set key value)
  | .get key => c.get key
  | .getOr key defaultValue => ((c.getOr key defaultValue).1, (c.getOr key defaultValue).2)
  | .getPtr key => c.getPtr key
  | .index key => ((c.index key).1.val, (c.index key).2)
  | .emplaceGet key arg => ((c.emplaceGet key arg).1.val, (c.emplaceGet key arg).2)
  | .emplaceGetPtr key arg => c.emplaceGetPtr key arg
  | .assign result newVal => (none, result.assign c newVal)
  | .save result => (none, result.save c)

/-- The calls of the strategy. -/
inductive Call (K V : Type*) where
  | set (key : K) (value : V)
  | get (key : K)
  | getPtr (key : K)

namespace Call

def key : Call K V → K
  | .set key _ => key
  | .get key => key
  | .getPtr key => key

/-- The cache after a call. -/
def apply (c : LruStrategy K V) : Call K V → LruStrategy K V
  | .set key value => c.set key value
  | .get key => (c.get key).2
  | .getPtr key => (c.getPtr key).2

/-- The value a call finds. -/
def value (c : LruStrategy K V) : Call K V → Option V
  | .set _ _ => none
  | .get key => (c.get key).1
  | .getPtr key => (c.getPtr key).1

end Call

/-- The calls an operation makes. -/
def Op.calls (c : LruStrategy K V) : Op K V → List (Call K V)
  | .set key value => [.set key value]
  | .get key => [.get key]
  | .getOr key _ => [.get key]
  | .getPtr key => [.getPtr key]
  | .index key => [.get key]
  | .emplaceGet key arg =>
      match (c.get key).1 with
      | some _ => [.get key]
      | none => [.get key, .set key arg]
  | .emplaceGetPtr key arg =>
      match (c.getPtr key).1 with
      | some _ => [.getPtr key]
      | none => [.getPtr key, .set key arg, .getPtr key]
  | .assign result newVal => [.set result.key newVal]
  | .save result =>
      match result.val with
      | some val => [.set result.key val]
      | none => []

theorem Op.perform_snd (c : LruStrategy K V) (op : Op K V) :
    (op.perform c).2 = Run.run Call.apply c (op.calls c) := by
  cases op with
  | set key value => rfl
  | get key => rfl
  | getOr key defaultValue => rfl
  | getPtr key => rfl
  | index key => rfl
  | emplaceGet key arg =>
      rcases h : c.get key with ⟨_ | val, c'⟩ <;>
        simp [perform, calls, LruStrategy.emplaceGet, h, Call.apply]
  | emplaceGetPtr key arg =>
      rcases h : c.getPtr key with ⟨_ | val, c'⟩ <;>
        simp [perform, calls, LruStrategy.emplaceGetPtr, h, Call.apply]
  | assign result newVal => rfl
  | save result =>
      rcases h : result.val with _ | val <;>
        simp [perform, calls, CacheResult.save, h, Call.apply]

/-- The calls that a run of operations makes. -/
def trace : LruStrategy K V → List (Op K V) → List (Call K V)
  | _, [] => []
  | c, op :: ops => op.calls c ++ trace (op.perform c).2 ops

theorem run_trace (c : LruStrategy K V) (ops : List (Op K V)) :
    Run.run (fun c op => (Op.perform c op).2) c ops =
      Run.run Call.apply c (trace c ops) := by
  induction ops generalizing c with
  | nil => rfl
  | cons op ops ih =>
      rw [Run.run_cons, trace, Run.run_append, ih, Op.perform_snd]

/-! ## Observed runs -/

/-- A cache, with what the calls made so far say about it. -/
structure Observed (K V : Type*) where
  cache : LruStrategy K V
  /-- The value most recently stored under each key. -/
  stored : K → Option V
  /-- How many `get`s have found the key since then. -/
  moves : K → ℕ
  /-- The keys in order of last use, the most recent first. -/
  recency : List K

namespace Observed

/-- A new cache, nothing stored. -/
def new (maxSize : SizeT) : Observed K V := ⟨.new maxSize, fun _ => none, fun _ => 0, []⟩

/-- A write uses its key, and so does a read that finds it. -/
def call (o : Observed K V) : Call K V → Observed K V
  | .set key value =>
      { cache := o.cache.set key value
        stored := Function.update o.stored key (some value)
        moves := Function.update o.moves key 0
        recency := Recency.touch key o.recency }
  | .get key =>
      if (o.cache.find key).isSome then
        { o with
          cache := (o.cache.get key).2
          moves := Function.update o.moves key (o.moves key + 1)
          recency := Recency.touch key o.recency }
      else { o with cache := (o.cache.get key).2 }
  | .getPtr key =>
      if (o.cache.find key).isSome then
        { o with
          cache := (o.cache.getPtr key).2
          recency := Recency.touch key o.recency }
      else { o with cache := (o.cache.getPtr key).2 }

/-- Observing a call does not change what it does. -/
@[simp] theorem call_cache (o : Observed K V) (a : Call K V) :
    (o.call a).cache = a.apply o.cache := by
  cases a with
  | set key value => rfl
  | get key =>
      rw [call, apply_ite Observed.cache, ite_self]
      rfl
  | getPtr key =>
      rw [call, apply_ite Observed.cache, ite_self]
      rfl

end Observed

end Webpp.Storage
