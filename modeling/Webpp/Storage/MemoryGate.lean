import Mathlib.Data.List.AList

/-!
# The memory gate

`MemoryGate K V O` is the storage gate that keeps its entries in a map, each key
with its value and its options. A map holds a key once, which is what
`AList.nodupKeys` states, and no operation here depends on the order of the
entries.

`get` moves the value and the options out of the entry it finds, so the entry
keeps what a moved-from value is: `Movable.movedFrom`.
-/

namespace Webpp.Storage

/-- What is left in an object after its value was moved out of it. -/
class Movable (V : Type*) where
  movedFrom : V → V

/-- A moved-from string is empty. -/
instance : Movable String := ⟨fun _ => ""⟩

/-- Moving an integer copies it. -/
instance : Movable UInt64 := ⟨id⟩

/-- Moving an integer copies it. -/
instance : Movable Int := ⟨id⟩

/-- A key with its value and its options. -/
structure CacheTuple (K V O : Type*) where
  key : K
  value : V
  options : O

/-- The gate: a map from keys to pairs of options and value. -/
structure MemoryGate (K V O : Type*) where
  map : AList fun _ : K => O × V

namespace MemoryGate

variable {K V O : Type*} [DecidableEq K]

/-- A gate with no entries. -/
def empty : MemoryGate K V O := ⟨∅⟩

/-- The options and the value held under `key`. -/
def find (g : MemoryGate K V O) (key : K) : Option (O × V) := g.map.lookup key

/-- Moves the entry of `key` into the returned bundle. -/
def get [Movable V] [Movable O] (g : MemoryGate K V O) (key : K) :
    Option (CacheTuple K V O) × MemoryGate K V O :=
  match g.map.lookup key with
  | some (opts, value) =>
      (some ⟨key, value, opts⟩,
        ⟨g.map.insert key (Movable.movedFrom opts, Movable.movedFrom value)⟩)
  | none => (none, g)

/-- The entry of `key` as pointers into the map. A pointer is modelled by what
it points to when the call returns. -/
def getPtr (g : MemoryGate K V O) (key : K) : Option (CacheTuple K V O) :=
  match g.map.lookup key with
  | some (opts, value) => some ⟨key, value, opts⟩
  | none => none

def set (g : MemoryGate K V O) (key : K) (value : V) (opts : O) :
    MemoryGate K V O :=
  ⟨g.map.insert key (opts, value)⟩

def setOptions (g : MemoryGate K V O) (key : K) (opts : O) : MemoryGate K V O :=
  match g.map.lookup key with
  | some (_, value) => ⟨g.map.insert key (opts, value)⟩
  | none => g

/-- `*ptr = value`, for the pointer to the value of a key that is there. -/
def write (g : MemoryGate K V O) (key : K) (value : V) : MemoryGate K V O :=
  match g.map.lookup key with
  | some (opts, _) => ⟨g.map.insert key (opts, value)⟩
  | none => g

def erase (g : MemoryGate K V O) (key : K) : MemoryGate K V O := ⟨g.map.erase key⟩

/-- Removes the entries that satisfy the predicate. -/
def eraseIf (g : MemoryGate K V O) (predicate : CacheTuple K V O → Bool) :
    MemoryGate K V O :=
  ⟨⟨g.map.entries.filter fun item =>
      !predicate ⟨item.1, item.2.2, item.2.1⟩,
    g.map.nodupKeys.sublist List.filter_sublist⟩⟩

/-! ## What `find` sees after each operation -/

@[simp] theorem find_empty (k : K) : (empty : MemoryGate K V O).find k = none :=
  AList.lookup_empty k

theorem find_set (g : MemoryGate K V O) (key k : K) (value : V) (opts : O) :
    (g.set key value opts).find k = if k = key then some (opts, value) else g.find k := by
  by_cases h : k = key
  · subst h
    simp [find, set]
  · simp [find, set, h]

theorem find_get [Movable V] [Movable O] (g : MemoryGate K V O) (key k : K) :
    (g.get key).2.find k =
      if k = key then
        (g.find key).map fun p => (Movable.movedFrom p.1, Movable.movedFrom p.2)
      else g.find k := by
  by_cases h : k = key
  · subst h
    cases hk : g.map.lookup k with
    | none => simp [find, get, hk]
    | some p => simp [find, get, hk]
  · cases hk : g.map.lookup key with
    | none => simp [find, get, hk, h]
    | some p => simp [find, get, hk, h]

theorem find_setOptions (g : MemoryGate K V O) (key k : K) (opts : O) :
    (g.setOptions key opts).find k =
      if k = key then (g.find key).map fun p => (opts, p.2) else g.find k := by
  by_cases h : k = key
  · subst h
    cases hk : g.map.lookup k with
    | none => simp [find, setOptions, hk]
    | some p => simp [find, setOptions, hk]
  · cases hk : g.map.lookup key with
    | none => simp [find, setOptions, hk, h]
    | some p => simp [find, setOptions, hk, h]

theorem find_write (g : MemoryGate K V O) (key k : K) (value : V) :
    (g.write key value).find k =
      if k = key then (g.find key).map fun p => (p.1, value) else g.find k := by
  by_cases h : k = key
  · subst h
    cases hk : g.map.lookup k with
    | none => simp [find, write, hk]
    | some p => simp [find, write, hk]
  · cases hk : g.map.lookup key with
    | none => simp [find, write, hk, h]
    | some p => simp [find, write, hk, h]

theorem find_eraseIf (g : MemoryGate K V O) (predicate : CacheTuple K V O → Bool)
    (k : K) :
    (g.eraseIf predicate).find k =
      (g.find k).filter fun p => !predicate ⟨k, p.2, p.1⟩ := by
  apply Option.ext
  intro p
  rw [Option.filter_eq_some_iff]
  have hmem : ∀ m : AList fun _ : K => O × V,
      m.lookup k = some p ↔ (⟨k, p⟩ : Sigma fun _ : K => O × V) ∈ m.entries :=
    fun m => AList.mem_lookup_iff
  simp only [find, hmem, eraseIf, List.mem_filter]

theorem getPtr_eq (g : MemoryGate K V O) (key : K) :
    g.getPtr key = (g.find key).map fun p => ⟨key, p.2, p.1⟩ := by
  cases h : g.map.lookup key with
  | none => simp [getPtr, find, h]
  | some p => simp [getPtr, find, h]

/-! ## The keys held -/

/-- The keys of the entries. -/
def keys (g : MemoryGate K V O) : List K := g.map.keys

omit [DecidableEq K] in
theorem nodup_keys (g : MemoryGate K V O) : g.keys.Nodup := g.map.keys_nodup

theorem mem_keys_iff (g : MemoryGate K V O) (k : K) :
    k ∈ g.keys ↔ ∃ p, g.find k = some p := by
  rw [← Option.isSome_iff_exists, find, AList.lookup_isSome]
  exact AList.mem_keys.symm

end MemoryGate

end Webpp.Storage
