import Mathlib.Data.List.TakeWhile
import Webpp.Foundation.Loop
import Webpp.Foundation.Run
import Webpp.Storage.LruCache

/-!
# Iterating a cache

The strategies have no iterators, so those of a cache are the ones of its gate. `end` of the memory
gate is the `begin` of its map: every range is empty, whatever is stored, and the loop of `clear`
ends before its first round. From `begin` to an iterator of the map, a range has the entries in
front of it (`visit_of_append`).
-/

namespace Webpp.Storage

open Loop Run

/-- An iterator of a map: at the entry of a key, or behind the last entry. -/
inductive MapIterator (K : Type*) where
  | entry (key : K)
  | pastEnd
  deriving DecidableEq

inductive IteratorFault where
  /-- The entry was erased. -/
  | erasedEntry
  | pastEnd
  | exhausted
  deriving DecidableEq

namespace MemoryGate

variable {K V O : Type*}

/-- What an entry of the map holds. -/
def bundle (item : Sigma fun _ : K => O × V) : CacheTuple K V O :=
  ⟨item.1, item.2.2, item.2.1⟩

/-- The iterator at the first of the entries. -/
def iteratorAt : List (Sigma fun _ : K => O × V) → MapIterator K
  | [] => .pastEnd
  | item :: _ => .entry item.1

/-- `begin`, const or not. -/
def first (g : MemoryGate K V O) : MapIterator K := iteratorAt g.map.entries

/-- `end`, const or not: it is `map.begin()`. -/
def last (g : MemoryGate K V O) : MapIterator K := iteratorAt g.map.entries

variable [DecidableEq K]

/-- `*it` -/
def deref (g : MemoryGate K V O) : MapIterator K → Except IteratorFault (CacheTuple K V O)
  | .pastEnd => .error .pastEnd
  | .entry key =>
      match g.find key with
      | some (opts, value) => .ok ⟨key, value, opts⟩
      | none => .error .erasedEntry

/-- `++it` -/
def next (g : MemoryGate K V O) : MapIterator K → Except IteratorFault (MapIterator K)
  | .pastEnd => .error .pastEnd
  | .entry key =>
      match g.map.entries.dropWhile fun item => decide (item.1 ≠ key) with
      | [] => .error .erasedEntry
      | _ :: behind => .ok (iteratorAt behind)

/-- A round of a loop over a range, with the entries that were visited. -/
def rangeStep (g : MemoryGate K V O) (last : MapIterator K)
    (s : MapIterator K × List (CacheTuple K V O)) :
    Except IteratorFault
      (Flow (MapIterator K × List (CacheTuple K V O)) (List (CacheTuple K V O))) :=
  if s.1 = last then .ok (.done s.2)
  else
    match g.deref s.1 with
    | .error fault => .error fault
    | .ok item =>
        match g.next s.1 with
        | .error fault => .error fault
        | .ok it => .ok (.next (it, s.2 ++ [item]))

/-- The entries in front of `last`. -/
def visit (g : MemoryGate K V O) (last : MapIterator K) :
    Except IteratorFault (List (CacheTuple K V O)) :=
  loop (rangeStep g last) .exhausted (g.map.entries.length + 1) (g.first, [])

/-! ## What a range has -/

section Range

variable {g : MemoryGate K V O} {before between behind : List (Sigma fun _ : K => O × V)}
  {item : Sigma fun _ : K => O × V}

theorem deref_entry (h : item ∈ g.map.entries) : g.deref (.entry item.1) = .ok (bundle item) := by
  have hfind : g.find item.1 = some item.2 := AList.mem_lookup_iff.mpr h
  rw [deref, hfind]
  rfl

theorem next_entry (h : g.map.entries = before ++ item :: behind) :
    g.next (.entry item.1) = .ok (iteratorAt behind) := by
  have hbefore : ∀ other ∈ before, decide (other.1 ≠ item.1) = true := by
    intro other hmem
    rw [decide_eq_true_eq]
    have hnodup := g.map.nodupKeys
    rw [h, List.NodupKeys, List.keys, List.map_append, List.nodup_append] at hnodup
    exact hnodup.2.2 _ (List.mem_map_of_mem hmem) _ (List.mem_map_of_mem List.mem_cons_self)
  rw [next, h, List.dropWhile_append_of_pos hbefore, List.dropWhile_cons_of_neg (by simp)]

omit [DecidableEq K] in
theorem iteratorAt_ne (h : g.map.entries = before ++ item :: between ++ behind) :
    iteratorAt (item :: between ++ behind) ≠ iteratorAt behind := by
  cases behind with
  | nil => exact nofun
  | cons other behind =>
      intro heq
      have hkey : item.1 = other.1 := MapIterator.entry.inj heq
      have hnodup := g.map.nodupKeys
      rw [h, List.append_assoc, List.cons_append, List.NodupKeys, List.keys, List.map_append,
        List.nodup_append, List.map_cons, List.nodup_cons] at hnodup
      refine hnodup.2.1.1 ?_
      rw [hkey]
      exact List.mem_map_of_mem (List.mem_append_right _ List.mem_cons_self)

theorem rangeStep_last (g : MemoryGate K V O) (last : MapIterator K)
    (out : List (CacheTuple K V O)) : rangeStep g last (last, out) = .ok (.done out) := if_pos rfl

theorem loop_between (h : g.map.entries = before ++ between ++ behind)
    (out : List (CacheTuple K V O)) {n : ℕ} (hn : between.length < n) :
    loop (rangeStep g (iteratorAt behind)) .exhausted n (iteratorAt (between ++ behind), out) =
      .ok (out ++ between.map bundle) := by
  induction between generalizing before out n with
  | nil =>
      obtain ⟨n, rfl⟩ := Nat.exists_eq_add_of_le' (Nat.succ_le_of_lt hn)
      rw [List.nil_append, List.map_nil, List.append_nil]
      exact loop_of_done (rangeStep_last g _ out) _
  | cons item between ih =>
      obtain ⟨n, rfl⟩ := Nat.exists_eq_add_of_le' (Nat.succ_le_of_lt (Nat.zero_lt_of_lt hn))
      have hmem : item ∈ g.map.entries := by simp [h]
      have hentries : g.map.entries = before ++ item :: (between ++ behind) := by
        rw [h, List.append_assoc, List.cons_append]
      have hstep : rangeStep g (iteratorAt behind) (iteratorAt (item :: between ++ behind), out) =
          .ok (.next (iteratorAt (between ++ behind), out ++ [bundle item])) := by
        rw [rangeStep, if_neg (iteratorAt_ne h), List.cons_append, iteratorAt, deref_entry hmem,
          next_entry hentries]
      have hsplit : g.map.entries = before ++ [item] ++ between ++ behind := by
        rw [hentries, List.append_assoc, List.append_assoc, List.singleton_append]
      rw [loop_of_next hstep, ih hsplit _ (Nat.lt_of_succ_lt_succ hn), List.map_cons,
        ← List.append_cons]

/-- From `begin` on, the entries in front of an iterator are visited in their order. -/
theorem visit_of_append (h : g.map.entries = between ++ behind) :
    g.visit (iteratorAt behind) = .ok (between.map bundle) := by
  rw [visit, first, h, List.length_append]
  have hentries : g.map.entries = [] ++ between ++ behind := h
  exact loop_between hentries [] (by omega)

theorem visit_last (g : MemoryGate K V O) : g.visit g.last = .ok [] :=
  visit_of_append (List.nil_append _).symm

end Range

theorem entries_eq_nil_iff (g : MemoryGate K V O) :
    g.map.entries = [] ↔ ∀ k, g.find k = none := by
  constructor
  · intro h k
    cases hfind : g.find k with
    | none => rfl
    | some p =>
        have hmem : (⟨k, p⟩ : Sigma fun _ : K => O × V) ∈ g.map.entries :=
          AList.mem_lookup_iff.mp hfind
        rw [h] at hmem
        exact absurd hmem List.not_mem_nil
  · intro h
    refine List.eq_nil_iff_forall_not_mem.mpr fun item hmem => ?_
    have hfind : g.find item.1 = some item.2 := AList.mem_lookup_iff.mpr hmem
    rw [h item.1] at hfind
    cases hfind

end MemoryGate

/-! ## The cache -/

/-- A strategy over a memory gate, by the members that the cache calls. -/
structure CacheStrategy (S K V O : Type*) where
  getGate : S → MemoryGate K V O
  set : S → K → V → S
  erase : S → K → S

namespace CacheStrategy

variable {S K V O : Type*} [DecidableEq K]

/-- `begin`: the strategy is not iterable. -/
def first (C : CacheStrategy S K V O) (s : S) : MapIterator K := (C.getGate s).first

/-- `end` -/
def last (C : CacheStrategy S K V O) (s : S) : MapIterator K := (C.getGate s).last

/-- A round of the loop of `clear`, which erases the entry at the iterator. -/
def clearStep (C : CacheStrategy S K V O) (last : MapIterator K) (s : MapIterator K × S) :
    Except IteratorFault (Flow (MapIterator K × S) S) :=
  if s.1 = last then .ok (.done s.2)
  else
    match (C.getGate s.2).deref s.1 with
    | .error fault => .error fault
    | .ok item =>
        let erased := C.erase s.2 item.key
        match (C.getGate erased).next s.1 with
        | .error fault => .error fault
        | .ok it => .ok (.next (it, erased))

/-- `clear`: the memory gate has none of its own. -/
def clear (C : CacheStrategy S K V O) (s : S) : Except IteratorFault S :=
  loop (clearStep C (C.last s)) .exhausted ((C.getGate s).map.entries.length + 1) (C.first s, s)

/-- The entries that a loop over the cache visits. -/
def visit (C : CacheStrategy S K V O) (s : S) : Except IteratorFault (List (CacheTuple K V O)) :=
  (C.getGate s).visit (C.last s)

/-- The operations of a run. -/
inductive Change (K V : Type*) where
  | set (key : K) (value : V)
  | erase (key : K)

def change (C : CacheStrategy S K V O) (s : S) : Change K V → S
  | .set key value => C.set s key value
  | .erase key => C.erase s key

/-- The loop over the cache visits what is stored, each entry once; `erase_if` keeps the entries
that do not satisfy the predicate; `clear` ends without a fault, and nothing is left. -/
structure RangeRight (C : CacheStrategy S K V O) (s : S) : Prop where
  visits : ∃ visited, C.visit s = .ok visited ∧
    visited.Perm ((C.getGate s).map.entries.map MemoryGate.bundle)
  erases : ∀ predicate k, ((C.getGate s).eraseIf predicate).find k =
    ((C.getGate s).find k).filter fun p => !predicate ⟨k, p.2, p.1⟩
  clears : ∃ s', C.clear s = .ok s' ∧ ∀ k, (C.getGate s').find k = none

/-- The loop of `clear` has no round. -/
theorem clear_eq (C : CacheStrategy S K V O) (s : S) : C.clear s = .ok s := by
  have hstep : clearStep C (C.last s) (C.first s, s) = .ok (.done s) := if_pos rfl
  exact loop_of_done hstep _

/-- Behind every run, iterating and clearing are right where nothing is stored. -/
theorem rangeRight_iff (C : CacheStrategy S K V O) (s : S) (changes : List (Change K V)) :
    RangeRight C (run C.change s changes) ↔
      ∀ k, (C.getGate (run C.change s changes)).find k = none := by
  generalize run C.change s changes = reached
  constructor
  · intro h
    obtain ⟨s', hclear, hnone⟩ := h.clears
    rw [clear_eq] at hclear
    cases hclear
    exact hnone
  · intro h
    refine ⟨⟨[], MemoryGate.visit_last _, ?_⟩, MemoryGate.find_eraseIf _, reached, clear_eq C _, h⟩
    rw [(MemoryGate.entries_eq_nil_iff _).mpr h]
    exact .nil

end CacheStrategy

/-- The LRU strategy. It has no `erase`, and here it takes the one of its gate. -/
def lruStrategy (K V : Type*) [DecidableEq K] : CacheStrategy (LruStrategy K V) K V SizeT where
  getGate c := c.gate
  set c key value := c.set key value
  erase c key := { c with gate := c.gate.erase key }

/-- A cache with one entry. -/
theorem not_rangeRight : ¬∀ changes : List (CacheStrategy.Change ℕ ℕ),
    CacheStrategy.RangeRight (lruStrategy ℕ ℕ)
      (run (lruStrategy ℕ ℕ).change (LruStrategy.new 4) changes) := by
  intro h
  have hnone := (CacheStrategy.rangeRight_iff _ _ _).mp (h [.set 1 2]) 1
  revert hnone
  decide

end Webpp.Storage
