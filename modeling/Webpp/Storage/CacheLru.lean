import Webpp.Storage.CacheEviction

/-!
# When the cache evicts the least recently used entry

A cache of capacity `maxSize` should hold the `maxSize` most recently used keys
(`HoldsRecent`). `cleanUp` reads this off the ticks, and a read or a second write
of a key takes a tick without adding an entry. A write therefore evicts the right
entries exactly when every one of the `maxSize` most recently used keys still has
its tick in the window of the last `maxSize` ticks (`WindowRoom`).
-/

namespace Webpp.Storage

namespace Observed

variable {K V : Type*} [DecidableEq K] [Movable V] {o : Observed K V} {a : Call K V}

/-- No call removes an entry unless more than `maxSize` keys would otherwise be
held, and after a write the entries are the `maxSize` most recently used keys. -/
def KeepsLru (o : Observed K V) (a : Call K V) : Prop :=
  (∀ e, o.cache.Present e → ¬ (o.call a).cache.Present e →
    o.cache.maxSize.toNat < (insert a.key o.cache.gate.keys.toFinset).card) ∧
  match a with
  | .set key value => ∀ k, (o.call (.set key value)).cache.Present k ↔
      k ∈ (Recency.touch key o.recency).take o.cache.maxSize.toNat
  | _ => True

/-- At a write, each of the `maxSize` most recently used keys, counting the one
written, has its tick among the last `maxSize` ticks. -/
def WindowRoom (o : Observed K V) : Call K V → Prop
  | .set key _ => ∀ k ∈ (Recency.touch key o.recency).take o.cache.maxSize.toNat,
      k ≠ key → ∀ t, o.cache.tick k = some t →
        o.cache.nextUsage.toNat + 1 ≤ t.toNat + o.cache.maxSize.toNat
  | _ => True

/-- The entries are the `maxSize` most recently used keys. -/
structure HoldsRecent (o : Observed K V) : Prop extends o.Ordered where
  held : ∀ k, o.cache.Present k ↔ k ∈ o.recency.take o.cache.maxSize.toNat

omit [Movable V] in
theorem holdsRecent_new (maxSize : SizeT) : (new maxSize : Observed K V).HoldsRecent where
  toOrdered := ordered_new maxSize
  held k := by simp [new, LruStrategy.Present]

/-! ## Reads -/

theorem present_read (o : Observed K V) (ha : ∀ key value, a ≠ .set key value)
    (k : K) : (o.call a).cache.Present k ↔ o.cache.Present k := by
  rw [call_cache]
  cases a with
  | set key value => exact absurd rfl (ha key value)
  | get key =>
      rw [LruStrategy.Present, Call.apply, LruStrategy.find_get]
      by_cases hk : k = key
      · rw [if_pos hk, hk, LruStrategy.Present]
        cases o.cache.find key <;> simp
      · rw [if_neg hk, LruStrategy.Present]
  | getPtr key =>
      rw [LruStrategy.Present, Call.apply, LruStrategy.find_getPtr]
      by_cases hk : k = key
      · rw [if_pos hk, hk, LruStrategy.Present]
        cases o.cache.find key <;> simp
      · rw [if_neg hk, LruStrategy.Present]

theorem call_maxSize (o : Observed K V) (a : Call K V) :
    (o.call a).cache.maxSize = o.cache.maxSize := by
  rw [call_cache]
  cases a <;> simp [Call.apply]

theorem present_of_read (o : Observed K V)
    (ha : ∀ key value, a ≠ .set key value) (hne : o.call a ≠ o) :
    o.cache.Present a.key := by
  by_contra hnot
  have hnone : o.cache.find a.key = none := by
    rw [Option.eq_none_iff_forall_ne_some]
    exact fun p hp => hnot ⟨p, hp⟩
  cases a with
  | set key value => exact ha key value rfl
  | get key =>
      have hkey : o.cache.find key = none := hnone
      exact hne (by simp [call, hkey, LruStrategy.get_eq_of_find_none hkey])
  | getPtr key =>
      have hkey : o.cache.find key = none := hnone
      have hmap : o.cache.gate.find key = none := hnone
      exact hne (by simp [call, hkey, LruStrategy.getPtr, MemoryGate.getPtr_eq, hmap])

theorem HoldsRecent.read (h : o.HoldsRecent) (hleft : o.TicksLeft)
    (ha : ∀ key value, a ≠ .set key value) : (o.call a).HoldsRecent := by
  refine ⟨ordered_call h.toOrdered hleft a, ?_⟩
  intro k
  rw [present_read o ha, call_maxSize, h.held]
  by_cases hsame : o.call a = o
  · rw [hsame]
  · have hkey := (h.held a.key).mp (present_of_read o ha hsame)
    have hrec := ((call_cases o a).resolve_left hsame).1
    rw [hrec, Recency.mem_take_touch h.nodup hkey]

/-! ## Writes -/

omit [Movable V] in
/-- Before a write the keys that hold a tick, the written one first, are the first
keys in order of last use. -/
theorem touch_take_prefix (o : Observed K V) (key : K) :
    Recency.touch key (o.recency.take o.cache.maxSize.toNat) <+:
      Recency.touch key o.recency := by
  rw [Recency.touch, Recency.touch, List.prefix_cons_inj]
  exact (List.take_prefix _ _).filter _

omit [Movable V] in
/-- A key whose tick is in the window is one of the `maxSize` most recently used:
the ticks of the keys used after it are distinct numbers of the window. -/
theorem HoldsRecent.mem_take_of_window (h : o.HoldsRecent) {key k : K}
    {t : SizeT} (ht : o.used key k = some t)
    (hwin : o.cache.nextUsage.toNat + 1 ≤ t.toNat + o.cache.maxSize.toNat) :
    k ∈ (Recency.touch key o.recency).take o.cache.maxSize.toNat := by
  set held := Recency.touch key (o.recency.take o.cache.maxSize.toNat) with hheld
  let tickOf : K → ℕ := fun x => ((o.used key x).map UInt64.toNat).getD 0
  have htick : ∀ x ∈ held, ∃ s, o.used key x = some s := by
    intro x hx
    by_cases hxk : x = key
    · exact ⟨_, by rw [hxk, used, Function.update_self]⟩
    · have hpres := (h.held x).mpr ((Recency.mem_touch.mp hx).resolve_left hxk)
      obtain ⟨s, hs⟩ := (o.cache.present_iff_tick x).mp hpres
      exact ⟨s, by rw [used, Function.update_of_ne hxk, hs]⟩
  have hk : k ∈ held := by
    rw [hheld, Recency.mem_touch]
    by_cases hkk : k = key
    · exact Or.inl hkk
    · rw [used, Function.update_of_ne hkk] at ht
      exact Or.inr ((h.held k).mp ((o.cache.present_iff_tick k).mpr ⟨t, ht⟩))
  have hsorted : held.Pairwise fun x y => tickOf y < tickOf x := by
    refine ((sorted_used h.toOrdered key).sublist
      (o.touch_take_prefix key).sublist).imp_of_mem ?_
    intro x y hx hy hxy
    obtain ⟨s, hs⟩ := htick x hx
    obtain ⟨u, hu⟩ := htick y hy
    have hlt := UInt64.lt_iff_toNat_lt.mp (hxy s u hs hu)
    simpa [tickOf, hs, hu] using hlt
  have hbound : ∀ x ∈ held, tickOf x ≤ o.cache.nextUsage.toNat := by
    intro x hx
    obtain ⟨s, hs⟩ := htick x hx
    have hle : s.toNat ≤ o.cache.nextUsage.toNat := by
      by_cases hxk : x = key
      · rw [hxk, used, Function.update_self] at hs
        rw [Option.some.inj hs]
      · rw [used, Function.update_of_ne hxk] at hs
        exact Nat.le_of_lt (UInt64.lt_iff_toNat_lt.mp (h.bound x s hs))
    simpa [tickOf, hs] using hle
  obtain ⟨i, hi, rfl⟩ := List.mem_iff_getElem.mp hk
  have hadd := Recency.add_index_le_of_pairwise hsorted hbound hi
  have hval : tickOf held[i] = t.toNat := by simp [tickOf, ht]
  have hpre := o.touch_take_prefix key
  rw [hpre.getElem hi]
  have hlen : i < (Recency.touch key o.recency).length := hi.trans_le hpre.length_le
  exact List.mem_take_iff_getElem.mpr ⟨i, lt_min (by omega) hlen, rfl⟩

/-- A write leaves the `maxSize` most recently used keys exactly when those still
have their ticks in the window. -/
theorem HoldsRecent.present_set_iff_mem_take (h : o.HoldsRecent)
    (hleft : o.TicksLeft) {key : K} {value : V} (hroom : o.WindowRoom (.set key value)) (k : K) :
    (o.call (.set key value)).cache.Present k ↔
      k ∈ (Recency.touch key o.recency).take o.cache.maxSize.toNat := by
  rw [present_set_iff hleft]
  constructor
  · rintro ⟨t, ht, hwin⟩
    exact h.mem_take_of_window ht hwin
  · intro hk
    have hpos : 0 < o.cache.maxSize.toNat := by
      rw [Nat.pos_iff_ne_zero]
      intro hzero
      simp [hzero] at hk
    by_cases hkk : k = key
    · exact ⟨o.cache.nextUsage, by rw [hkk, used, Function.update_self], by omega⟩
    · obtain ⟨m, hm⟩ := Nat.exists_eq_succ_of_ne_zero (Nat.pos_iff_ne_zero.mp hpos)
      have hmem : k ∈ o.recency.take o.cache.maxSize.toNat := by
        rw [hm, Recency.touch, Nat.succ_eq_add_one, List.take_succ_cons, List.mem_cons] at hk
        rw [hm]
        exact Recency.mem_take_succ_of_mem_take_filter h.nodup (hk.resolve_left hkk)
      obtain ⟨t, ht⟩ := (o.cache.present_iff_tick k).mp ((h.held k).mpr hmem)
      exact ⟨t, by rw [used, Function.update_of_ne hkk, ht], hroom k hk hkk t ht⟩

omit [Movable V] in
/-- A write that leaves the most recently used keys evicts only when there would
be more than `maxSize` keys. -/
theorem HoldsRecent.evicts_when_full (h : o.HoldsRecent) {key e : K} (he : o.cache.Present e)
    (hgone : e ∉ (Recency.touch key o.recency).take o.cache.maxSize.toNat) :
    o.cache.maxSize.toNat < (insert key o.cache.gate.keys.toFinset).card := by
  set recent := (Recency.touch key o.recency).take o.cache.maxSize.toNat with hrecent
  have hnodup : recent.Nodup := (Recency.nodup_touch h.nodup).sublist (List.take_sublist _ _)
  have hlen : recent.length = o.cache.maxSize.toNat := by
    rw [hrecent, List.length_take, Nat.min_eq_left]
    by_contra hlt
    refine hgone ?_
    rw [hrecent, List.take_of_length_le (by omega), Recency.mem_touch]
    exact Or.inr (h.mem e he)
  have hsub : insert e recent.toFinset ⊆ insert key o.cache.gate.keys.toFinset := by
    intro x hx
    rw [Finset.mem_insert, List.mem_toFinset] at hx ⊢
    rcases hx with rfl | hx
    · exact Or.inr (o.cache.present_iff_mem_keys x |>.mp he)
    · by_cases hxk : x = key
      · exact Or.inl hxk
      · refine Or.inr ((o.cache.present_iff_mem_keys x).mp ((h.held x).mpr ?_))
        cases hM : o.cache.maxSize.toNat with
        | zero => simp [hrecent, hM] at hx
        | succ m =>
            rw [hrecent, hM, Recency.touch, List.take_succ_cons, List.mem_cons] at hx
            exact Recency.mem_take_succ_of_mem_take_filter h.nodup (hx.resolve_left hxk)
  have hcard := Finset.card_le_card hsub
  rw [Finset.card_insert_of_notMem (by rwa [List.mem_toFinset]),
    List.toFinset_card_of_nodup hnodup, hlen] at hcard
  omega

theorem HoldsRecent.keepsLru_iff_windowRoom (h : o.HoldsRecent)
    (hleft : o.TicksLeft) (a : Call K V) : o.KeepsLru a ↔ o.WindowRoom a := by
  have hread : (∀ key value, a ≠ .set key value) → ∀ e, o.cache.Present e →
      ¬ (o.call a).cache.Present e →
      o.cache.maxSize.toNat < (insert a.key o.cache.gate.keys.toFinset).card :=
    fun ha e he hgone => absurd ((present_read o ha e).mpr he) hgone
  cases a with
  | get key => exact iff_of_true ⟨hread (by simp), trivial⟩ trivial
  | getPtr key => exact iff_of_true ⟨hread (by simp), trivial⟩ trivial
  | set key value =>
      constructor
      · rintro ⟨-, hexact⟩ k hk hkk t ht
        obtain ⟨s, hs, hwin⟩ := (present_set_iff hleft key value k).mp ((hexact k).mpr hk)
        rw [used, Function.update_of_ne hkk, ht] at hs
        rwa [Option.some.inj hs]
      · intro hroom
        have hexact := h.present_set_iff_mem_take hleft hroom
        refine ⟨fun e he hgone => ?_, hexact⟩
        exact h.evicts_when_full he fun hmem => hgone ((hexact e).mpr hmem)

theorem HoldsRecent.call (h : o.HoldsRecent) (hleft : o.TicksLeft)
    (a : Call K V) (hroom : o.WindowRoom a) : (o.call a).HoldsRecent := by
  cases a with
  | get key => exact h.read hleft (by simp)
  | getPtr key => exact h.read hleft (by simp)
  | set key value =>
      refine ⟨ordered_call h.toOrdered hleft _, ?_⟩
      intro k
      rw [h.present_set_iff_mem_take hleft hroom, call_maxSize]
      rfl

end Observed

open Observed

/-- In a run that never uses up the ticks, a cache evicts the least recently used
entries, and those only when it has to, exactly when at every write the
`maxSize` most recently used keys still have their ticks among the last
`maxSize`. -/
theorem trace_keepsLru_iff {K V : Type*} [DecidableEq K] [Movable V]
    (maxSize : SizeT) (ops : List (Op K V)) :
    Run.AtEach call (fun o a => o.TicksLeft ∧ o.KeepsLru a)
        (new maxSize) (trace (.new maxSize) ops) ↔
      Run.AtEach call (fun o a => o.TicksLeft ∧ o.WindowRoom a)
        (new maxSize) (trace (.new maxSize) ops) := by
  refine Run.atEach_iff_of_invariant HoldsRecent ?_ ?_ (holdsRecent_new maxSize) _
  · intro o a h hC
    exact h.call hC.1 a hC.2
  · intro o a h
    exact and_congr_right fun hleft => h.keepsLru_iff_windowRoom hleft a

/-- Two reads of the second key push the first out of a cache that has room for
both. -/
theorem trace_not_keepsLru :
    ¬ ∀ (maxSize : SizeT) (ops : List (Op Int Int)), 1 ≤ maxSize →
      Run.AtEach call (fun o a => o.KeepsLru a) (new maxSize)
        (trace (.new maxSize) ops) := by
  intro h
  have hrun := h 2 [.set 1 10, .set 2 20, .get 2, .get 2, .set 2 21] (by decide)
  have hlast := ((Run.atEach_iff_forall _ _ _ _).mp hrun)
    [.set 1 10, .set 2 20, .get 2, .get 2] (.set 2 21) [] rfl
  have hone := (hlast.2 1).mpr (by decide)
  obtain ⟨p, hp⟩ := hone
  revert hp
  decide +revert

end Webpp.Storage
