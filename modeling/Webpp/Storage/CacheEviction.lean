import Webpp.Storage.Cache
import Mathlib.Data.Finset.Card
import Mathlib.Order.Interval.Finset.Nat
import Mathlib.Tactic.Ring

/-!
# Which entries a write of the cache evicts

The options of an entry are the tick of its last use. As long as the counter
has not wrapped around (`TicksLeft`), the ticks sort the entries by last use
(`Ordered`): they are distinct, smaller than the counter, and follow the order of
`Observed.recency`. `cleanUp` keeps the entries whose tick is among the last
`maxSize` ticks, which are the `maxSize` most recently used ones exactly when
none of those has fallen out of that window (`WindowRoom`).
-/

namespace Webpp.Storage

namespace Observed

variable {K V : Type*} [DecidableEq K] [Movable V]

/-- The counter can be incremented once more without wrapping around. -/
def TicksLeft (o : Observed K V) : Prop := o.cache.nextUsage.toNat + 1 < 2 ^ 64

/-- The ticks of all keys after a use of `key`, before anything is cleaned up. -/
def used (o : Observed K V) (key : K) : K → Option SizeT :=
  Function.update o.cache.tick key (some o.cache.nextUsage)

/-- The later of two keys has the smaller tick. -/
def Later (tick : K → Option SizeT) (x y : K) : Prop :=
  ∀ s t, tick x = some s → tick y = some t → t < s

/-- The entries are sorted by their ticks in the order of last use. -/
structure Ordered (o : Observed K V) : Prop where
  nodup : o.recency.Nodup
  mem : ∀ k, o.cache.Present k → k ∈ o.recency
  sorted : o.recency.Pairwise (Later o.cache.tick)
  bound : ∀ k t, o.cache.tick k = some t → t < o.cache.nextUsage

omit [Movable V] in
theorem ordered_new (maxSize : SizeT) : (new maxSize : Observed K V).Ordered where
  nodup := List.nodup_nil
  mem k hk := by simp [new, LruStrategy.Present] at hk
  sorted := List.Pairwise.nil
  bound k t ht := by simp [new, LruStrategy.tick] at ht

omit [DecidableEq K] [Movable V] in
theorem toNat_nextUsage_succ {o : Observed K V} (h : o.TicksLeft) :
    (o.cache.nextUsage + 1).toNat = o.cache.nextUsage.toNat + 1 := by
  rw [UInt64.toNat_add, UInt64.toNat_one, Nat.mod_eq_of_lt h]

/-- A call either changes nothing, being a read of a key that is not in the
cache, or uses its key: the key gets the current tick, the counter is
incremented, and no other tick appears. -/
theorem call_cases (o : Observed K V) (a : Call K V) :
    o.call a = o ∨
      ((o.call a).recency = Recency.touch a.key o.recency ∧
        (o.call a).cache.nextUsage = o.cache.nextUsage + 1 ∧
        ∀ k t, (o.call a).cache.tick k = some t → o.used a.key k = some t) := by
  have hused : ∀ (key : K) (find' : K → Option (SizeT × V)),
      (∀ k t, (find' k).map Prod.fst = some t →
        (if k = key then some o.cache.nextUsage else o.cache.tick k) = some t) →
      ∀ k t, (find' k).map Prod.fst = some t → o.used key k = some t := by
    intro key find' h k t ht
    rw [used, Function.update_apply]
    exact h k t ht
  cases a with
  | set key value =>
      refine Or.inr ⟨rfl, by simp [call], hused key _ ?_⟩
      intro k t ht
      obtain ⟨p, hp, rfl⟩ := Option.map_eq_some_iff.mp ht
      rw [call_cache, Call.apply, LruStrategy.find_set, Option.filter_eq_some_iff] at hp
      by_cases hk : k = key
      · rw [if_pos hk] at hp ⊢
        rw [← Option.some.inj hp.1]
      · rw [if_neg hk] at hp ⊢
        rw [LruStrategy.tick, hp.1, Option.map_some]
  | get key =>
      cases hkey : o.cache.find key with
      | none =>
          left
          simp [call, hkey, LruStrategy.get_eq_of_find_none hkey]
      | some p =>
          refine Or.inr ⟨by simp [call, hkey, Call.key],
            by simp [call, hkey, LruStrategy.get_nextUsage], hused key _ ?_⟩
          intro k t ht
          rw [call_cache, Call.apply, LruStrategy.find_get] at ht
          by_cases hk : k = key
          · simpa [hk, hkey] using ht
          · simpa [hk, LruStrategy.tick] using ht
  | getPtr key =>
      cases hkey : o.cache.find key with
      | none =>
          left
          have hmap : o.cache.gate.find key = none := hkey
          simp [call, hkey, LruStrategy.getPtr, MemoryGate.getPtr_eq, hmap]
      | some p =>
          refine Or.inr ⟨by simp [call, hkey, Call.key],
            by simp [call, hkey, LruStrategy.getPtr_nextUsage], hused key _ ?_⟩
          intro k t ht
          rw [call_cache, Call.apply, LruStrategy.find_getPtr] at ht
          by_cases hk : k = key
          · simpa [hk, hkey] using ht
          · simpa [hk, LruStrategy.tick] using ht

omit [Movable V] in
/-- The order of last use after a use of `key` is the order of the ticks. -/
theorem sorted_used {o : Observed K V} (h : o.Ordered) (key : K) :
    (Recency.touch key o.recency).Pairwise (Later (o.used key)) := by
  have hother : ∀ k, k ≠ key → o.used key k = o.cache.tick k :=
    fun k hk => Function.update_of_ne hk _ _
  refine Recency.pairwise_touch ?_ ?_
  · intro x _ hx s t hs ht
    rw [used, Function.update_self] at hs
    rw [hother x hx] at ht
    rw [← Option.some.inj hs]
    exact h.bound x t ht
  · refine (h.sorted.filter _).imp_of_mem ?_
    intro x y hx hy hxy s t hs ht
    have hx' : x ≠ key := by simpa using (List.mem_filter.mp hx).2
    have hy' : y ≠ key := by simpa using (List.mem_filter.mp hy).2
    rw [hother x hx'] at hs
    rw [hother y hy'] at ht
    exact hxy s t hs ht

theorem ordered_call {o : Observed K V} (h : o.Ordered) (hleft : o.TicksLeft)
    (a : Call K V) : (o.call a).Ordered := by
  rcases call_cases o a with hsame | ⟨hrec, hnext, htick⟩
  · rwa [hsame]
  refine ⟨?_, ?_, ?_, ?_⟩
  · rw [hrec]
    exact Recency.nodup_touch h.nodup
  · intro k hk
    obtain ⟨t, ht⟩ := ((o.call a).cache.present_iff_tick k).mp hk
    have hu := htick k t ht
    rw [hrec, Recency.mem_touch]
    by_cases hkey : k = a.key
    · exact Or.inl hkey
    · rw [used, Function.update_of_ne hkey] at hu
      exact Or.inr (h.mem k ((o.cache.present_iff_tick k).mpr ⟨t, hu⟩))
  · rw [hrec]
    refine (sorted_used h a.key).imp ?_
    intro x y hxy s t hs ht
    exact hxy s t (htick x s hs) (htick y t ht)
  · intro k t ht
    rw [hnext, UInt64.lt_iff_toNat_lt, toNat_nextUsage_succ hleft]
    have hu := htick k t ht
    by_cases hkey : k = a.key
    · rw [used, hkey, Function.update_self] at hu
      rw [← Option.some.inj hu]
      exact Nat.lt_succ_self _
    · rw [used, Function.update_of_ne hkey] at hu
      exact Nat.lt_succ_of_lt (UInt64.lt_iff_toNat_lt.mp (h.bound k t hu))

omit [Movable V] in
theorem Ordered.tick_inj {o : Observed K V} (h : o.Ordered) {x y : K} {t : SizeT}
    (hx : o.cache.tick x = some t) (hy : o.cache.tick y = some t) : x = y := by
  by_contra hne
  have hxm := h.mem x ((o.cache.present_iff_tick x).mpr ⟨t, hx⟩)
  have hym := h.mem y ((o.cache.present_iff_tick y).mpr ⟨t, hy⟩)
  have hnot : ∀ z w : K, o.cache.tick z = some t → o.cache.tick w = some t →
      ¬ Later o.cache.tick z w :=
    fun z w hz hw hlater => UInt64.lt_irrefl t (hlater t t hz hw)
  have hxy := Recency.before_of_pairwise h.sorted hxm hym hne (hnot y x hy hx)
  have hyx := Recency.before_of_pairwise h.sorted hym hxm (Ne.symm hne) (hnot x y hx hy)
  exact Nat.lt_asymm hxy hyx

/-! ## After a write -/

/-- The entries after a write are the written ones in the window of the last
`maxSize` ticks. -/
theorem tick_set (o : Observed K V) (key : K) (value : V) (k : K) :
    (o.call (.set key value)).cache.tick k =
      (o.used key k).filter fun t =>
        decide ((o.cache.nextUsage + 1).toNat ≤ t.toNat + o.cache.maxSize.toNat) := by
  rw [call_cache, Call.apply, LruStrategy.tick, LruStrategy.find_set, used,
    Function.update_apply]
  by_cases hk : k = key
  · rw [if_pos hk, if_pos hk, Option.filter_some, Option.filter_some]
    split <;> rfl
  · rw [if_neg hk, if_neg hk, LruStrategy.tick]
    cases o.cache.find k with
    | none => rfl
    | some p =>
        rw [Option.map_some, Option.filter_some, Option.filter_some]
        split <;> rfl

theorem present_set_iff {o : Observed K V} (h : o.TicksLeft) (key : K) (value : V)
    (k : K) :
    (o.call (.set key value)).cache.Present k ↔
      ∃ t, o.used key k = some t ∧
        o.cache.nextUsage.toNat + 1 ≤ t.toNat + o.cache.maxSize.toNat := by
  rw [LruStrategy.present_iff_tick]
  refine exists_congr fun t => ?_
  rw [tick_set, Option.filter_eq_some_iff, decide_eq_true_iff, toNat_nextUsage_succ h]

/-- All stored ticks are distinct and smaller than the counter. -/
structure TicksSound (o : Observed K V) : Prop where
  distinct : ∀ x y t, o.cache.tick x = some t → o.cache.tick y = some t → x = y
  bound : ∀ k t, o.cache.tick k = some t → t < o.cache.nextUsage

/-- After a write at most `maxSize` entries remain, the key just written is one of
them when `maxSize` is positive, and every entry that remains was used more
recently than an evicted one. -/
def SetSound (o : Observed K V) : Call K V → Prop
  | .set key value =>
      let o' := o.call (.set key value)
      o'.cache.gate.keys.length ≤ o.cache.maxSize.toNat ∧
        (1 ≤ o.cache.maxSize → o'.cache.Present key) ∧
        ∀ e x, o.cache.Present e ∨ e = key → ¬ o'.cache.Present e →
          o'.cache.Present x → Recency.Before o'.recency x e
  | _ => True

theorem length_keys_set_le {o : Observed K V} (h : o.Ordered) (hleft : o.TicksLeft)
    (key : K) (value : V) :
    (o.call (.set key value)).cache.gate.keys.length ≤ o.cache.maxSize.toNat := by
  set o' := o.call (.set key value) with ho'
  have hord : o'.Ordered := ordered_call h hleft _
  have hnext : o'.cache.nextUsage.toNat = o.cache.nextUsage.toNat + 1 := by
    rw [ho', call_cache, Call.apply, LruStrategy.set_nextUsage, toNat_nextUsage_succ hleft]
  -- the ticks of the entries are distinct numbers of the window
  let tickOf : K → ℕ := fun k => ((o'.cache.tick k).map UInt64.toNat).getD 0
  have htick : ∀ k ∈ o'.cache.gate.keys.toFinset, ∃ t, o'.cache.tick k = some t := by
    intro k hk
    rw [List.mem_toFinset, ← LruStrategy.present_iff_mem_keys] at hk
    exact (o'.cache.present_iff_tick k).mp hk
  have hmaps : ∀ k ∈ o'.cache.gate.keys.toFinset, tickOf k ∈
      Finset.Ico (o'.cache.nextUsage.toNat - o.cache.maxSize.toNat)
        o'.cache.nextUsage.toNat := by
    intro k hk
    obtain ⟨t, ht⟩ := htick k hk
    have hlt := UInt64.lt_iff_toNat_lt.mp (hord.bound k t ht)
    rw [ho', tick_set, Option.filter_eq_some_iff, decide_eq_true_iff,
      toNat_nextUsage_succ hleft] at ht
    rw [Finset.mem_Ico]
    have htk : tickOf k = t.toNat := by
      have : o'.cache.tick k = some t := by
        rw [ho', tick_set, Option.filter_eq_some_iff, decide_eq_true_iff,
          toNat_nextUsage_succ hleft]
        exact ht
      simp [tickOf, this]
    omega
  have hinj : Set.InjOn tickOf o'.cache.gate.keys.toFinset := by
    intro x hx y hy hxy
    obtain ⟨s, hs⟩ := htick x hx
    obtain ⟨t, ht⟩ := htick y hy
    have hst : s = t := by
      apply UInt64.toNat_inj.mp
      simpa [tickOf, hs, ht] using hxy
    exact hord.tick_inj hs (hst ▸ ht)
  have hcard := Finset.card_le_card_of_injOn tickOf hmaps hinj
  rw [List.toFinset_card_of_nodup o'.cache.gate.nodup_keys, Nat.card_Ico] at hcard
  omega

theorem setSound_call {o : Observed K V} (h : o.Ordered) (hleft : o.TicksLeft)
    (a : Call K V) : o.SetSound a := by
  cases a with
  | get key => trivial
  | getPtr key => trivial
  | set key value =>
      refine ⟨length_keys_set_le h hleft key value, ?_, ?_⟩
      · intro hmax
        rw [present_set_iff hleft]
        have hmax' : 1 ≤ o.cache.maxSize.toNat := UInt64.le_iff_toNat_le.mp hmax
        exact ⟨o.cache.nextUsage, Function.update_self .., by omega⟩
      · intro e x he hgone hx
        obtain ⟨t, ht, hwin⟩ := (present_set_iff hleft key value x).mp hx
        have hused : ∃ s, o.used key e = some s := by
          by_cases hek : e = key
          · exact ⟨_, by rw [hek, used, Function.update_self]⟩
          · obtain ⟨s, hs⟩ := (o.cache.present_iff_tick e).mp (he.resolve_right hek)
            exact ⟨s, by rw [used, Function.update_of_ne hek, hs]⟩
        obtain ⟨s, hs⟩ := hused
        have hmem : ∀ k t, o.used key k = some t → k ∈ Recency.touch key o.recency := by
          intro k t hk
          rw [Recency.mem_touch]
          by_cases hkk : k = key
          · exact Or.inl hkk
          · rw [used, Function.update_of_ne hkk] at hk
            exact Or.inr (h.mem k ((o.cache.present_iff_tick k).mpr ⟨t, hk⟩))
        have hsmall : ¬ o.cache.nextUsage.toNat + 1 ≤ s.toNat + o.cache.maxSize.toNat :=
          fun hle => hgone ((present_set_iff hleft key value e).mpr ⟨s, hs, hle⟩)
        refine Recency.before_of_pairwise (sorted_used h key) (hmem x t ht) (hmem e s hs) ?_ ?_
        · rintro rfl
          exact hgone hx
        · intro hlater
          have := UInt64.lt_iff_toNat_lt.mp (hlater s t hs ht)
          omega

omit [Movable V] in
theorem Ordered.ticksSound {o : Observed K V} (h : o.Ordered) : o.TicksSound where
  distinct _ _ _ hx hy := h.tick_inj hx hy
  bound := h.bound

/-- A run of fewer calls than there are ticks left does not wrap the counter
around. -/
theorem atEach_ticksLeft (o : Observed K V) (calls : List (Call K V))
    (h : o.cache.nextUsage.toNat + calls.length < 2 ^ 64) :
    Run.AtEach call (fun o _ => o.TicksLeft) o calls := by
  induction calls generalizing o with
  | nil => trivial
  | cons a calls ih =>
      rw [List.length_cons] at h
      have hleft : o.TicksLeft := by
        unfold TicksLeft
        omega
      refine ⟨hleft, ih (o.call a) ?_⟩
      rcases call_cases o a with hsame | ⟨-, hnext, -⟩
      · rw [hsame]
        omega
      · rw [hnext, toNat_nextUsage_succ hleft]
        omega

/-! ## Runs that wrap the counter around -/

theorem trace_replicate_get (c : LruStrategy K V) (key : K) (n : ℕ) :
    trace c (List.replicate n (.get key)) = List.replicate n (.get key) := by
  induction n generalizing c with
  | zero => rfl
  | succ n ih =>
      rw [List.replicate_succ, trace, ih, List.replicate_succ]
      rfl

theorem run_replicate_get (o : Observed K V) (key : K) (n : ℕ)
    (h : o.cache.Present key) :
    (Run.run call o (List.replicate n (.get key))).cache.nextUsage =
        o.cache.nextUsage + UInt64.ofNat n ∧
      (Run.run call o (List.replicate n (.get key))).cache.Present key := by
  induction n generalizing o with
  | zero => exact ⟨by simp, h⟩
  | succ n ih =>
      obtain ⟨p, hp⟩ := h
      have hnext : (o.call (.get key)).cache.nextUsage = o.cache.nextUsage + 1 := by
        simp [Call.apply, LruStrategy.get_nextUsage, hp]
      have hpres : (o.call (.get key)).cache.Present key := by
        simp [LruStrategy.Present, Call.apply, LruStrategy.find_get, hp]
      rw [List.replicate_succ, Run.run_cons]
      refine ⟨?_, (ih _ hpres).2⟩
      rw [(ih _ hpres).1, hnext, UInt64.ofNat_add, UInt64.add_assoc,
        UInt64.add_comm (UInt64.ofNat n)]
      rfl

/-- What holds at each call of a write followed by `n + 1` reads holds at the
last read. -/
theorem atEach_replicate_get {P : Observed K V → Call K V → Prop} (o : Observed K V)
    (key : K) (value : V) (n : ℕ)
    (h : Run.AtEach call P o
      (trace o.cache (.set key value :: List.replicate (n + 1) (.get key)))) :
    P (Run.run call (o.call (.set key value)) (List.replicate n (.get key))) (.get key) := by
  rw [trace, trace_replicate_get, List.replicate_succ', Run.atEach_append,
    Run.atEach_append] at h
  exact h.2.2.1

end Observed

open Observed

/-- In a run of fewer calls than the counter has values left, the stored ticks
are distinct and smaller than the counter after every call, and every write
leaves at most `maxSize` entries, its own key among them, and evicts only
entries used less recently than those that stay. -/
theorem trace_ticksSound {K V : Type*} [DecidableEq K] [Movable V]
    (maxSize : SizeT) (ops : List (Op K V))
    (h : (trace (.new maxSize) ops).length < 2 ^ 64 - 1) :
    Run.AtEach call (fun o a => (o.call a).TicksSound ∧ o.SetSound a)
      (new maxSize) (trace (.new maxSize) ops) := by
  refine Run.atEach_of_invariant Ordered (fun _ a ho hleft => ordered_call ho hleft a)
    (fun _ a ho hleft => ⟨(ordered_call ho hleft a).ticksSound, setSound_call ho hleft a⟩)
    (ordered_new maxSize) (atEach_ticksLeft _ _ ?_)
  have hfirst : (new maxSize : Observed K V).cache.nextUsage.toNat = 1 := rfl
  omega

/-- Three operations are far from the end of the counter. -/
theorem trace_ticksSound_three :
    Run.AtEach call (fun o a => (o.call a).TicksSound ∧ o.SetSound a)
      (new 1 : Observed Int Int) (trace (.new 1) [.set 1 10, .get 1, .set 2 20]) :=
  trace_ticksSound 1 [.set 1 10, .get 1, .set 2 20] (by decide)

/-- A read that takes the last tick leaves a counter of 0, and no stored tick is
smaller than that. -/
theorem not_ticksSound_of_wrap (n : ℕ) (hn : (2 : UInt64) + UInt64.ofNat n + 1 = 0) :
    ¬ Run.AtEach call (fun o a => (o.call a).TicksSound ∧ o.SetSound a)
      (new 3 : Observed Int Int)
      (trace (.new 3) (.set 1 10 :: List.replicate (n + 1) (.get 1))) := by
  intro h
  have hlast := atEach_replicate_get (new 3) 1 10 n h
  obtain ⟨hnow, p, hp⟩ := run_replicate_get ((new 3 : Observed Int Int).call (.set 1 10)) 1
    n ⟨(1, 10), by decide⟩
  generalize Run.run call ((new 3 : Observed Int Int).call (.set 1 10))
    (List.replicate n (.get 1)) = o at hlast hnow hp
  have hfirst : ((new 3 : Observed Int Int).call (.set 1 10)).cache.nextUsage = 2 := by decide
  have hafter : (o.call (.get 1)).cache.nextUsage = 0 := by
    rw [call_cache, Call.apply, LruStrategy.get_nextUsage, hp, hnow, hfirst]
    exact hn
  have htick : (o.call (.get 1)).cache.tick 1 = some o.cache.nextUsage := by
    simp [LruStrategy.tick, Call.apply, LruStrategy.find_get, hp]
  have hbound := hlast.1.bound 1 _ htick
  rw [hafter] at hbound
  exact absurd hbound UInt64.not_lt_zero

/-- After `2 ^ 64 - 1` ticks the counter has wrapped around. -/
theorem trace_not_ticksSound :
    ¬ ∀ (maxSize : SizeT) (ops : List (Op Int Int)),
      Run.AtEach call (fun o a => (o.call a).TicksSound ∧ o.SetSound a)
        (new maxSize) (trace (.new maxSize) ops) := by
  intro h
  exact not_ticksSound_of_wrap (2 ^ 64 - 3) (by decide) (h 3 _)

end Webpp.Storage
