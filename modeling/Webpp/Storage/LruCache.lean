import Webpp.Storage.MemoryGate

/-!
# The LRU strategy

`LruStrategy K V` keeps in the options of each entry the tick at which the key
was last used. The ticks come from the counter `nextUsage`, a `size_t`, which
every write and every read that finds its key increments. `cleanUp` erases the
entries whose tick is more than `maxSize` behind the counter.
-/

namespace Webpp.Storage

/-- `size_t` of a 64-bit platform. -/
abbrev SizeT := UInt64

structure LruStrategy (K V : Type*) where
  maxSize : SizeT
  nextUsage : SizeT
  gate : MemoryGate K V SizeT

namespace LruStrategy

variable {K V : Type*} [DecidableEq K]

/-- A new cache: no entries, and the first tick is 1. -/
def new (maxSize : SizeT) : LruStrategy K V := ⟨maxSize, 1, MemoryGate.empty⟩

def defaultMaxSize : SizeT := 1024

/-- Clean up the old data. -/
def cleanUp (c : LruStrategy K V) : LruStrategy K V :=
  if c.nextUsage ≤ c.maxSize then c
  else
    let breakIndex := c.nextUsage - c.maxSize
    { c with gate := c.gate.eraseIf fun item => decide (item.options < breakIndex) }

def set (c : LruStrategy K V) (key : K) (value : V) : LruStrategy K V :=
  cleanUp { c with
    gate := c.gate.set key value c.nextUsage
    nextUsage := c.nextUsage + 1 }

def get [Movable V] (c : LruStrategy K V) (key : K) : Option V × LruStrategy K V :=
  match c.gate.get key with
  | (none, gate) => (none, { c with gate := gate })
  | (some data, gate) =>
      (some data.value, { c with
        gate := gate.setOptions key c.nextUsage
        nextUsage := c.nextUsage + 1 })

/-- The pointer to the value, modelled by the value it points to. -/
def getPtr (c : LruStrategy K V) (key : K) : Option V × LruStrategy K V :=
  match c.gate.getPtr key with
  | none => (none, c)
  | some data =>
      (some data.value, { c with
        gate := c.gate.setOptions key c.nextUsage
        nextUsage := c.nextUsage + 1 })

/-- A change of the value through the pointer to it. -/
def write (c : LruStrategy K V) (key : K) (value : V) : LruStrategy K V :=
  { c with gate := c.gate.write key value }

/-! ## The entries -/

/-- The tick and the value of `k`. -/
def find (c : LruStrategy K V) (k : K) : Option (SizeT × V) := c.gate.find k

/-- `k` is in the cache. -/
def Present (c : LruStrategy K V) (k : K) : Prop := ∃ p, c.find k = some p

/-- The tick at which `k` was last used. -/
def tick (c : LruStrategy K V) (k : K) : Option SizeT := (c.find k).map Prod.fst

theorem present_iff_tick (c : LruStrategy K V) (k : K) :
    c.Present k ↔ ∃ t, c.tick k = some t := by
  cases h : c.find k with
  | none => simp [Present, tick, h]
  | some p => simp [Present, tick, h]

theorem present_iff_mem_keys (c : LruStrategy K V) (k : K) :
    c.Present k ↔ k ∈ c.gate.keys :=
  (c.gate.mem_keys_iff k).symm

@[simp] theorem find_new (maxSize : SizeT) (k : K) :
    (new maxSize : LruStrategy K V).find k = none := MemoryGate.find_empty k

omit [DecidableEq K] in
@[simp] theorem cleanUp_maxSize (c : LruStrategy K V) : c.cleanUp.maxSize = c.maxSize := by
  unfold cleanUp
  split <;> rfl

omit [DecidableEq K] in
@[simp] theorem cleanUp_nextUsage (c : LruStrategy K V) :
    c.cleanUp.nextUsage = c.nextUsage := by
  unfold cleanUp
  split <;> rfl

/-- An entry outlives `cleanUp` when its tick lies in the window of the last
`maxSize` ticks. -/
theorem find_cleanUp (c : LruStrategy K V) (k : K) :
    c.cleanUp.find k =
      (c.find k).filter fun p => decide (c.nextUsage.toNat ≤ p.1.toNat + c.maxSize.toNat) := by
  unfold cleanUp
  split
  case isTrue h =>
    have hall : ∀ t : SizeT, c.nextUsage.toNat ≤ t.toNat + c.maxSize.toNat :=
      fun t => Nat.le_trans (UInt64.le_iff_toNat_le.mp h) (Nat.le_add_left _ _)
    cases c.find k with
    | none => rfl
    | some p => rw [Option.filter_some, if_pos (decide_eq_true (hall p.1))]
  case isFalse h =>
    have hlt : c.maxSize.toNat < c.nextUsage.toNat :=
      UInt64.lt_iff_toNat_lt.mp (UInt64.not_le.mp h)
    have hsub : (c.nextUsage - c.maxSize).toNat = c.nextUsage.toNat - c.maxSize.toNat :=
      UInt64.toNat_sub_of_le _ _ (UInt64.le_of_lt (UInt64.not_le.mp h))
    have hwindow : ∀ t : SizeT,
        (!decide (t < c.nextUsage - c.maxSize)) =
          decide (c.nextUsage.toNat ≤ t.toNat + c.maxSize.toNat) := by
      intro t
      rw [← decide_not, decide_eq_decide, UInt64.lt_iff_toNat_lt, hsub]
      omega
    simp only [find, MemoryGate.find_eraseIf, hwindow]

/-! ## What `find` sees after each call -/

@[simp] theorem set_maxSize (c : LruStrategy K V) (key : K) (value : V) :
    (c.set key value).maxSize = c.maxSize := by simp [set]

@[simp] theorem set_nextUsage (c : LruStrategy K V) (key : K) (value : V) :
    (c.set key value).nextUsage = c.nextUsage + 1 := by simp [set]

theorem find_set (c : LruStrategy K V) (key k : K) (value : V) :
    (c.set key value).find k =
      (if k = key then some (c.nextUsage, value) else c.find k).filter fun p =>
        decide ((c.nextUsage + 1).toNat ≤ p.1.toNat + c.maxSize.toNat) := by
  rw [set, find_cleanUp]
  simp only [find, MemoryGate.find_set]

theorem get_eq_of_find_none [Movable V] {c : LruStrategy K V} {key : K}
    (h : c.find key = none) : c.get key = (none, c) := by
  have hmap : c.gate.map.lookup key = none := h
  simp [get, MemoryGate.get, hmap]

theorem get_fst [Movable V] (c : LruStrategy K V) (key : K) :
    (c.get key).1 = (c.find key).map Prod.snd := by
  cases h : c.find key with
  | none => rw [get_eq_of_find_none h]; rfl
  | some p =>
      have hmap : c.gate.map.lookup key = some p := h
      simp [get, MemoryGate.get, hmap]

theorem find_get [Movable V] (c : LruStrategy K V) (key k : K) :
    (c.get key).2.find k =
      if k = key then
        (c.find key).map fun p => (c.nextUsage, Movable.movedFrom p.2)
      else c.find k := by
  cases h : c.find key with
  | none =>
      rw [get_eq_of_find_none h]
      by_cases hk : k = key
      · simp [hk, h]
      · simp [hk]
  | some p =>
      have hget : (c.get key).2.gate = (c.gate.get key).2.setOptions key c.nextUsage := by
        have hmap : c.gate.map.lookup key = some p := h
        simp [get, MemoryGate.get, hmap]
      have hfind : c.gate.find key = some p := h
      rw [find, hget, MemoryGate.find_setOptions, MemoryGate.find_get, MemoryGate.find_get]
      by_cases hk : k = key
      · simp [hk, hfind]
      · simp [hk, find]

theorem get_nextUsage [Movable V] (c : LruStrategy K V) (key : K) :
    (c.get key).2.nextUsage =
      if (c.find key).isSome then c.nextUsage + 1 else c.nextUsage := by
  cases h : c.find key with
  | none => rw [get_eq_of_find_none h]; rfl
  | some p =>
      have hmap : c.gate.map.lookup key = some p := h
      simp [get, MemoryGate.get, hmap]

@[simp] theorem get_maxSize [Movable V] (c : LruStrategy K V) (key : K) :
    (c.get key).2.maxSize = c.maxSize := by
  unfold get
  split <;> rfl

theorem getPtr_fst (c : LruStrategy K V) (key : K) :
    (c.getPtr key).1 = (c.find key).map Prod.snd := by
  cases h : c.gate.find key with
  | none => simp [getPtr, MemoryGate.getPtr_eq, find, h]
  | some p => simp [getPtr, MemoryGate.getPtr_eq, find, h]

theorem find_getPtr (c : LruStrategy K V) (key k : K) :
    (c.getPtr key).2.find k =
      if k = key then (c.find key).map fun p => (c.nextUsage, p.2) else c.find k := by
  cases h : c.gate.find key with
  | none =>
      have hsame : (c.getPtr key).2 = c := by simp [getPtr, MemoryGate.getPtr_eq, h]
      by_cases hk : k = key
      · simp [hsame, hk, find, h]
      · simp [hsame, hk]
  | some p =>
      have hgate : (c.getPtr key).2.gate = c.gate.setOptions key c.nextUsage := by
        simp [getPtr, MemoryGate.getPtr_eq, h]
      rw [find, hgate, MemoryGate.find_setOptions]
      rfl

theorem getPtr_nextUsage (c : LruStrategy K V) (key : K) :
    (c.getPtr key).2.nextUsage =
      if (c.find key).isSome then c.nextUsage + 1 else c.nextUsage := by
  cases h : c.gate.find key with
  | none => simp [getPtr, MemoryGate.getPtr_eq, find, h]
  | some p => simp [getPtr, MemoryGate.getPtr_eq, find, h]

@[simp] theorem getPtr_maxSize (c : LruStrategy K V) (key : K) :
    (c.getPtr key).2.maxSize = c.maxSize := by
  unfold getPtr
  split <;> rfl

theorem find_write (c : LruStrategy K V) (key k : K) (value : V) :
    (c.write key value).find k =
      if k = key then (c.find key).map fun p => (p.1, value) else c.find k :=
  MemoryGate.find_write c.gate key k value

/-! ## What every entry satisfies -/

/-- Each entry has the property `P`. -/
def Entries (P : K → V → Prop) (c : LruStrategy K V) : Prop :=
  ∀ k p, c.find k = some p → P k p.2

variable {P Q : K → V → Prop} {c : LruStrategy K V}

theorem entries_new (maxSize : SizeT) : (new maxSize : LruStrategy K V).Entries P := by
  intro k p h
  simp at h

theorem Entries.mono (h : c.Entries P) (himp : ∀ k v, P k v → Q k v) : c.Entries Q :=
  fun k p hp => himp k p.2 (h k p hp)

theorem Entries.write (h : c.Entries P) {key : K} {value : V} (hP : P key value) :
    (c.write key value).Entries P := by
  intro k p hp
  rw [find_write] at hp
  split_ifs at hp with hk
  · rw [Option.map_eq_some_iff] at hp
    obtain ⟨q, -, rfl⟩ := hp
    rw [hk]
    exact hP
  · exact h k p hp

theorem Entries.set (h : c.Entries P) {key : K} {value : V} (hP : P key value) :
    (c.set key value).Entries P := by
  intro k p hp
  rw [find_set, Option.filter_eq_some_iff] at hp
  have hfind := hp.1
  split_ifs at hfind with hk
  · cases hfind
    rw [hk]
    exact hP
  · exact h k p hfind

theorem Entries.getPtr (h : c.Entries P) (key : K) : (c.getPtr key).2.Entries P := by
  intro k p hp
  rw [find_getPtr] at hp
  split_ifs at hp with hk
  · rw [Option.map_eq_some_iff] at hp
    obtain ⟨q, hq, rfl⟩ := hp
    rw [hk]
    exact h key q hq
  · exact h k p hp

/-- A cache that may hold an entry holds the one that was just set, whatever the ticks are. -/
theorem exists_find_set (hmax : 0 < c.maxSize) (key : K) (value : V) :
    (c.set key value).find key = some (c.nextUsage, value) := by
  have hpos : 1 ≤ c.maxSize.toNat := UInt64.lt_iff_toNat_lt.mp hmax
  have hnext : (c.nextUsage + 1).toNat ≤ c.nextUsage.toNat + c.maxSize.toNat := by
    rw [UInt64.toNat_add]
    exact Nat.le_trans (Nat.mod_le _ _) (Nat.add_le_add_left hpos _)
  rw [find_set, if_pos rfl, Option.filter_some, if_pos (decide_eq_true hnext)]

end LruStrategy

end Webpp.Storage
