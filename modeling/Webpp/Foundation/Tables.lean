import Mathlib.Data.List.Basic
import Mathlib.Data.List.Chain
import Mathlib.Data.List.Nodup

/-!
# Tables

A record begins with a header and takes as many elements of its table as stand before the
next header. A search for a record ends at the last of the headers with a property, which
is one that the headers lose at some point of the table and never get back.

A sparse table is given by some of its entries, in the order of their positions, and has a
default value everywhere else.
-/

/-! ## Records -/

namespace RecordTable

variable {α : Type*} {p q : α → Prop} {table : List α} {bound bound' pos pos' : ℕ}

/-- There is an element at the position, and it has the property. -/
def Holds (p : α → Prop) (table : List α) (pos : ℕ) : Prop := ∃ a ∈ table[pos]?, p a

instance [DecidablePred p] (table : List α) (pos : ℕ) : Decidable (Holds p table pos) :=
  inferInstanceAs (Decidable (∃ a ∈ table[pos]?, p a))

theorem holds_of_getElem? {a : α} (hget : table[pos]? = some a) (ha : p a) : Holds p table pos :=
  ⟨a, hget, ha⟩

theorem holds_iff_of_getElem? {a : α} (hget : table[pos]? = some a) :
    Holds p table pos ↔ p a := by
  constructor
  · rintro ⟨b, hb, hp⟩
    rw [hget] at hb
    cases hb
    exact hp
  · exact holds_of_getElem? hget

theorem Holds.lt_length (h : Holds p table pos) : pos < table.length := by
  obtain ⟨a, ha, _⟩ := h
  exact (List.getElem?_eq_some_iff.1 ha).1

theorem Holds.mono (hpq : ∀ a, p a → q a) (h : Holds p table pos) : Holds q table pos := by
  obtain ⟨a, ha, hp⟩ := h
  exact ⟨a, ha, hpq a hp⟩

/-- The last position before the bound with the property. -/
structure LastBelow (p : α → Prop) (table : List α) (bound pos : ℕ) : Prop where
  lt : pos < bound
  holds : Holds p table pos
  last : ∀ pos', pos < pos' → pos' < bound → ¬ Holds p table pos'

/-- The last position of the whole table with the property. -/
abbrev IsLast (p : α → Prop) (table : List α) (pos : ℕ) : Prop :=
  LastBelow p table table.length pos

theorem LastBelow.unique (h : LastBelow p table bound pos) (h' : LastBelow p table bound pos') :
    pos = pos' := by
  rcases Nat.lt_trichotomy pos pos' with hlt | heq | hlt
  · exact absurd h'.holds (h.last pos' hlt h'.lt)
  · exact heq
  · exact absurd h.holds (h'.last pos hlt h.lt)

/-- An element with the property is the last one before its successor. -/
theorem Holds.lastBelow (h : Holds p table pos) : LastBelow p table (pos + 1) pos where
  lt := Nat.lt_succ_self pos
  holds := h
  last _ hlt hle := absurd hle (Nat.not_lt.2 hlt)

/-- An element without the property leaves the last one as it is. -/
theorem LastBelow.succ (h : LastBelow p table bound pos) (hbound : ¬ Holds p table bound) :
    LastBelow p table (bound + 1) pos where
  lt := Nat.lt_succ_of_lt h.lt
  holds := h.holds
  last pos' hlt hle := by
    rcases Nat.lt_succ_iff_lt_or_eq.1 hle with hlt' | rfl
    · exact h.last pos' hlt hlt'
    · exact hbound

/-- The last header is the last one with a property of headers, if it has it. -/
theorem LastBelow.of_imp (hpq : ∀ a, p a → q a) (h : LastBelow q table bound pos)
    (hp : Holds p table pos) : LastBelow p table bound pos where
  lt := h.lt
  holds := hp
  last pos' hlt hle hp' := h.last pos' hlt hle (hp'.mono hpq)

/-- Something that holds before the bound is not behind the last one. -/
theorem LastBelow.le_of_holds (h : LastBelow p table bound pos) (hpos : Holds p table pos')
    (hlt : pos' < bound) : pos' ≤ pos := by
  by_contra hle
  exact h.last pos' (Nat.lt_of_not_le hle) hlt hpos

/-- An element behind which none has the property. -/
theorem isLast_append {front rest : List α} {a : α} (ha : p a) (hrest : ∀ b ∈ rest, ¬ p b) :
    IsLast p (front ++ a :: rest) front.length where
  lt := by simp
  holds := by simp [Holds, ha]
  last pos' hlt _ := by
    rintro ⟨b, hb, hp⟩
    obtain ⟨k, rfl⟩ := Nat.exists_eq_add_of_lt hlt
    have hget : (front ++ a :: rest)[front.length + k + 1]? = rest[k]? := by
      rw [Nat.add_assoc, List.getElem?_append_right (Nat.le_add_right _ _), Nat.add_sub_cancel_left,
        List.getElem?_cons_succ]
    rw [hget] at hb
    exact hrest b (List.mem_of_getElem? hb) hp

/-- Of the elements with `q`, the ones with `p` come first. -/
def Initial (p q : α → Prop) (table : List α) : Prop :=
  table.Pairwise (fun a b => q a → q b → p b → p a)

theorem Initial.not_holds (h : Initial p q table) (hpq : ∀ a, p a → q a) (hq : Holds q table pos)
    (hp : ¬ Holds p table pos) (hlt : pos < pos') : ¬ Holds p table pos' := by
  rintro ⟨b, hb, hpb⟩
  obtain ⟨a, ha, hqa⟩ := hq
  obtain ⟨hpos, rfl⟩ := List.getElem?_eq_some_iff.1 ha
  obtain ⟨hpos', rfl⟩ := List.getElem?_eq_some_iff.1 hb
  exact hp ⟨_, ha, List.pairwise_iff_getElem.1 h pos pos' hpos hpos' hlt hqa (hpq _ hpb) hpb⟩

theorem Initial.holds_of_le (h : Initial p q table) (hpq : ∀ a, p a → q a)
    (hq : Holds q table pos) (hp : Holds p table pos') (hle : pos ≤ pos') :
    Holds p table pos := by
  by_contra hnot
  rcases Nat.eq_or_lt_of_le hle with rfl | hlt
  · exact hnot hp
  · exact h.not_holds hpq hq hnot hlt hp

/-- The first header without the property ends the search. -/
theorem LastBelow.of_initial (h : LastBelow p table bound pos) (hinitial : Initial p q table)
    (hpq : ∀ a, p a → q a) (hq : Holds q table bound) (hp : ¬ Holds p table bound) :
    IsLast p table pos where
  lt := h.holds.lt_length
  holds := h.holds
  last pos' hlt _ := by
    rcases Nat.lt_trichotomy pos' bound with hlt' | rfl | hlt'
    · exact h.last pos' hlt hlt'
    · exact hp
    · exact hinitial.not_holds hpq hq hp hlt'

end RecordTable

/-! ## Sparse tables -/

namespace SparseTable

variable {α : Type*} {entries : List (ℕ × α)} {default a b : α} {pos : ℕ}

/-- The value at a position. -/
def lookup (entries : List (ℕ × α)) (default : α) (pos : ℕ) : α :=
  match entries.find? (fun e => e.1 == pos) with
  | some e => e.2
  | none => default

/-- The positions increase. -/
def Increasing (entries : List (ℕ × α)) : Prop := entries.IsChain (fun e f => e.1 < f.1)

instance (entries : List (ℕ × α)) : Decidable (Increasing entries) :=
  inferInstanceAs (Decidable (entries.IsChain (fun e f => e.1 < f.1)))

theorem Increasing.pairwise (h : Increasing entries) : entries.Pairwise (fun e f => e.1 < f.1) := by
  have htrans : IsTrans (ℕ × α) (fun e f => e.1 < f.1) := ⟨fun _ _ _ => Nat.lt_trans⟩
  exact List.isChain_iff_pairwise.1 h

theorem Increasing.eq_of_mem (h : Increasing entries) {e f : ℕ × α} (he : e ∈ entries)
    (hf : f ∈ entries) (hpos : e.1 = f.1) : e = f := by
  have hnodup : (entries.map Prod.fst).Nodup :=
    List.pairwise_map.2 (h.pairwise.imp Nat.ne_of_lt)
  exact List.inj_on_of_nodup_map hnodup he hf hpos

theorem lookup_of_mem (h : Increasing entries) (hmem : (pos, a) ∈ entries) :
    lookup entries default pos = a := by
  rw [lookup]
  cases hfind : entries.find? (fun e => e.1 == pos) with
  | none =>
      have hne := List.find?_eq_none.1 hfind (pos, a) hmem
      simp at hne
  | some e =>
      have hpos : e.1 = pos := by simpa using List.find?_some hfind
      rw [h.eq_of_mem (List.mem_of_find?_eq_some hfind) hmem hpos]

theorem lookup_of_not_mem (h : ∀ a, (pos, a) ∉ entries) : lookup entries default pos = default := by
  rw [lookup]
  cases hfind : entries.find? (fun e => e.1 == pos) with
  | none => rfl
  | some e =>
      have hpos : e.1 = pos := by simpa using List.find?_some hfind
      have hmem := List.mem_of_find?_eq_some hfind
      rw [← hpos] at h
      exact absurd hmem (h e.2)

/-- A value is one of the entries, or the default. -/
theorem mem_or_lookup_eq (h : Increasing entries) (pos : ℕ) (default : α) :
    (pos, lookup entries default pos) ∈ entries ∨
      (∀ a, (pos, a) ∉ entries) ∧ lookup entries default pos = default := by
  by_cases hmem : ∃ a, (pos, a) ∈ entries
  · obtain ⟨a, ha⟩ := hmem
    rw [lookup_of_mem h ha]
    exact .inl ha
  · rw [not_exists] at hmem
    exact .inr ⟨hmem, lookup_of_not_mem hmem⟩

end SparseTable
