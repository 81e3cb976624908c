import Mathlib.Data.Option.Basic
import Mathlib.Logic.Function.Basic
import Webpp.Foundation.Loop

/-!
# Copies of path traversers

A path traverser has a vector of segments and an iterator into it. Its copy has a vector of its
own, and an iterator into the vector of the original. What a traverser is for is a value, the
segments and an index, and a copy of a value is independent of it. The runs that answer as values
do are the ones in which a traverser that was copied is reset before it is used.
-/

namespace Webpp.Uri.Traversers

open Function Loop

inductive Fault where
  /-- There is no traverser of this name, or there is one already. -/
  | name
  /-- `--pos` at the beginning. -/
  | beforeBegin
  | pastEnd
  /-- The vector of the iterator is gone. -/
  | dangling
  /-- Iterators of two vectors are compared. -/
  | foreign
  deriving DecidableEq

inductive Answer (α : Type) where
  | done
  | bool (b : Bool)
  | slug (slug : Option α)
  deriving DecidableEq

/-- The members of a traverser. -/
inductive Call (α : Type) where
  | next
  | prev
  | reset
  | checkSegment (slug : α)
  | peek
  | atEnd
  | atBeginning

/-- An iterator of a vector, which is known by its storage. -/
structure PathIterator where
  storage : ℕ
  index : ℕ
  deriving DecidableEq

structure PathTraverser where
  path : ℕ
  pos : PathIterator
  deriving DecidableEq

variable {α : Type}

/-! ## The members -/

/-- `operator==`, for iterators of one vector. -/
def PathIterator.eq (x y : PathIterator) : Except Fault Bool :=
  if x.storage = y.storage then .ok (x.index == y.index) else .error .foreign

section Members

variable (storages : ℕ → Option (List α))

/-- The segments of a storage. -/
def segments (storage : ℕ) : Except Fault (List α) :=
  match storages storage with
  | some segs => .ok segs
  | none => .error .dangling

def PathIterator.deref (x : PathIterator) : Except Fault α := do
  let segs ← segments storages x.storage
  match segs[x.index]? with
  | some slug => .ok slug
  | none => .error .pastEnd

def PathIterator.increment (x : PathIterator) : Except Fault PathIterator := do
  let segs ← segments storages x.storage
  if x.index < segs.length then .ok ⟨x.storage, x.index + 1⟩ else .error .pastEnd

def PathIterator.decrement (x : PathIterator) : Except Fault PathIterator := do
  let _ ← segments storages x.storage
  if x.index = 0 then .error .beforeBegin else .ok ⟨x.storage, x.index - 1⟩

namespace PathTraverser

def atEnd (t : PathTraverser) : Except Fault Bool := do
  let segs ← segments storages t.path
  t.pos.eq ⟨t.path, segs.length⟩

def next (t : PathTraverser) : Except Fault (Bool × PathTraverser) := do
  if ← t.atEnd storages then .ok (false, t)
  else
    let pos ← t.pos.increment storages
    .ok (true, { t with pos := pos })

def peek (t : PathTraverser) : Except Fault (Option α) := do
  if ← t.atEnd storages then .ok none
  else
    let slug ← t.pos.deref storages
    .ok (some slug)

/-- The segment is passed over where it is a match. -/
def checkSegment [DecidableEq α] (t : PathTraverser) (slug : α) : Except Fault (Bool × PathTraverser) := do
  if ← t.atEnd storages then .ok (false, t)
  else
    let segment ← t.pos.deref storages
    if segment = slug then
      let r ← t.next storages
      .ok (true, r.2)
    else .ok (false, t)

def call [DecidableEq α] (t : PathTraverser) : Call α → Except Fault (Answer α × PathTraverser)
  | .next => do
      let r ← t.next storages
      .ok (.bool r.1, r.2)
  | .prev => do
      let pos ← t.pos.decrement storages
      .ok (.done, { t with pos := pos })
  | .reset => .ok (.done, { t with pos := ⟨t.path, 0⟩ })
  | .checkSegment slug => do
      let r ← t.checkSegment storages slug
      .ok (.bool r.1, r.2)
  | .peek => do
      let slug ← t.peek storages
      .ok (.slug slug, t)
  | .atEnd => do
      let b ← t.atEnd storages
      .ok (.bool b, t)
  | .atBeginning => do
      let b ← t.pos.eq ⟨t.path, 0⟩
      .ok (.bool b, t)

end PathTraverser

end Members

/-! ## Objects -/

/-- The operations on named traversers. One is constructed with the segments that are left when the
path is normalised; a copy is made by the copy constructor, by `branch`, and by `clone` of the
context that has the traverser. -/
inductive Op (α : Type) where
  | construct (name : ℕ) (path : List α)
  | copy (name source : ℕ)
  | assign (name source : ℕ)
  | destroy (name : ℕ)
  | call (name : ℕ) (c : Call α)

/-- The vectors of segments, and the traversers. A storage is used once. -/
structure Memory (α : Type) where
  storages : ℕ → Option (List α)
  fresh : ℕ
  traversers : ℕ → Option PathTraverser

namespace Memory

def empty : Memory α := ⟨fun _ => none, 0, fun _ => none⟩

def find (m : Memory α) (name : ℕ) : Except Fault PathTraverser :=
  match m.traversers name with
  | some t => .ok t
  | none => .error .name

def checkUnused (m : Memory α) (name : ℕ) : Except Fault Unit :=
  match m.traversers name with
  | some _ => .error .name
  | none => .ok ()

/-- A new vector for a traverser, with the iterator. -/
def place (m : Memory α) (name : ℕ) (path : List α) (pos : PathIterator) : Memory α :=
  ⟨update m.storages m.fresh (some path), m.fresh + 1,
    update m.traversers name (some ⟨m.fresh, pos⟩)⟩

/-- A traverser is destroyed with its vector. -/
def release (m : Memory α) (name : ℕ) (t : PathTraverser) : Memory α :=
  ⟨update m.storages t.path none, m.fresh, update m.traversers name none⟩

/-- An operation. The defaulted copies copy the iterator as it is. -/
def step [DecidableEq α] (m : Memory α) : Op α → Except Fault (Answer α × Memory α)
  | .construct name path => do
      m.checkUnused name
      .ok (.done, m.place name path ⟨m.fresh, 0⟩)
  | .copy name source => do
      m.checkUnused name
      let t ← m.find source
      let path ← segments m.storages t.path
      .ok (.done, m.place name path t.pos)
  | .assign name source => do
      let old ← m.find name
      let t ← m.find source
      let path ← segments m.storages t.path
      .ok (.done, if name = source then m else (m.release name old).place name path t.pos)
  | .destroy name => do
      let t ← m.find name
      .ok (.done, m.release name t)
  | .call name c => do
      let t ← m.find name
      let r ← t.call m.storages c
      .ok (r.1, { m with traversers := update m.traversers name (some r.2) })

end Memory

/-! ## Values -/

/-- A traverser as a value: its segments, and the index of the next one. -/
structure Value (α : Type) where
  path : List α
  index : ℕ

def Value.call [DecidableEq α] (v : Value α) : Call α → Except Fault (Answer α × Value α)
  | .next =>
      if v.index = v.path.length then .ok (.bool false, v)
      else .ok (.bool true, ⟨v.path, v.index + 1⟩)
  | .prev => if v.index = 0 then .error .beforeBegin else .ok (.done, ⟨v.path, v.index - 1⟩)
  | .reset => .ok (.done, ⟨v.path, 0⟩)
  | .checkSegment slug =>
      if v.path[v.index]? = some slug then .ok (.bool true, ⟨v.path, v.index + 1⟩)
      else .ok (.bool false, v)
  | .peek => .ok (.slug v.path[v.index]?, v)
  | .atEnd => .ok (.bool (v.index == v.path.length), v)
  | .atBeginning => .ok (.bool (v.index == 0), v)

abbrev Values (α : Type) := ℕ → Option (Value α)

namespace Values

def empty : Values α := fun _ => none

def find (vs : Values α) (name : ℕ) : Except Fault (Value α) :=
  match vs name with
  | some v => .ok v
  | none => .error .name

def checkUnused (vs : Values α) (name : ℕ) : Except Fault Unit :=
  match vs name with
  | some _ => .error .name
  | none => .ok ()

def step [DecidableEq α] (vs : Values α) : Op α → Except Fault (Answer α × Values α)
  | .construct name path => do
      vs.checkUnused name
      .ok (.done, update vs name (some ⟨path, 0⟩))
  | .copy name source => do
      vs.checkUnused name
      let v ← vs.find source
      .ok (.done, update vs name (some v))
  | .assign name source => do
      let _ ← vs.find name
      let v ← vs.find source
      .ok (.done, update vs name (some v))
  | .destroy name => do
      let _ ← vs.find name
      .ok (.done, update vs name none)
  | .call name c => do
      let v ← vs.find name
      let r ← v.call c
      .ok (r.1, update vs name (some r.2))

end Values

/-- The traverser that an operation is about. -/
def Op.name : Op α → ℕ
  | construct name _ => name
  | copy name _ => name
  | assign name _ => name
  | destroy name => name
  | call name _ => name

/-! ## One call -/

section Calls

variable {storages : ℕ → Option (List α)} {fresh : ℕ} {t : PathTraverser} {v : Value α}

/-- The traverser has the segments and the index of the value. Its iterator may be one of another
vector. -/
structure Holds (storages : ℕ → Option (List α)) (fresh : ℕ) (t : PathTraverser) (v : Value α) :
    Prop where
  path_eq : storages t.path = some v.path
  index_eq : t.pos.index = v.index
  index_le : v.index ≤ v.path.length
  path_lt : t.path < fresh
  storage_lt : t.pos.storage < fresh

theorem Holds.segments_eq (h : Holds storages fresh t v) :
    segments storages t.path = .ok v.path := by
  rw [segments, h.path_eq]

theorem Holds.atEnd_eq (h : Holds storages fresh t v) (hown : t.pos.storage = t.path) :
    t.atEnd storages = .ok (v.index == v.path.length) := by
  rw [PathTraverser.atEnd, h.segments_eq]
  change t.pos.eq _ = _
  rw [PathIterator.eq, if_pos hown, h.index_eq]

theorem Holds.atEnd_foreign (h : Holds storages fresh t v) (hown : t.pos.storage ≠ t.path) :
    t.atEnd storages = .error .foreign := by
  rw [PathTraverser.atEnd, h.segments_eq]
  exact if_neg hown

theorem Holds.deref_eq (h : Holds storages fresh t v) (hown : t.pos.storage = t.path)
    (hlt : v.index < v.path.length) : t.pos.deref storages = .ok v.path[v.index] := by
  rw [PathIterator.deref, hown, h.segments_eq, h.index_eq]
  simp only [bind, Except.bind, List.getElem?_eq_getElem hlt]

theorem Holds.increment_eq (h : Holds storages fresh t v) (hown : t.pos.storage = t.path)
    (hlt : v.index < v.path.length) :
    t.pos.increment storages = .ok ⟨t.path, v.index + 1⟩ := by
  rw [PathIterator.increment, hown, h.segments_eq, h.index_eq]
  exact if_pos hlt

theorem Holds.move (h : Holds storages fresh t v) {index : ℕ} (hle : index ≤ v.path.length) :
    Holds storages fresh { t with pos := ⟨t.path, index⟩ } ⟨v.path, index⟩ :=
  ⟨h.path_eq, rfl, hle, h.path_lt, h.path_lt⟩

/-- The answers are the same, and the traverser has its vector still. -/
def Follows (storages : ℕ → Option (List α)) (fresh : ℕ) (t : PathTraverser)
    (r : Answer α × PathTraverser) (r' : Answer α × Value α) : Prop :=
  r.1 = r'.1 ∧ Holds storages fresh r.2 r'.2 ∧ r.2.path = t.path

theorem Holds.next_eq (h : Holds storages fresh t v) (hown : t.pos.storage = t.path) :
    t.next storages = .ok (if v.index = v.path.length then (false, t)
      else (true, { t with pos := ⟨t.path, v.index + 1⟩ })) := by
  rw [PathTraverser.next, h.atEnd_eq hown]
  by_cases hend : v.index = v.path.length
  · rw [if_pos hend, beq_iff_eq.mpr hend]
    rfl
  · have hpos := h.increment_eq hown (Nat.lt_of_le_of_ne h.index_le hend)
    rw [if_neg hend, beq_eq_false_iff_ne.mpr hend]
    simp only [bind, Except.bind, Bool.false_eq_true, if_false, hpos]

theorem Holds.peek_eq (h : Holds storages fresh t v) (hown : t.pos.storage = t.path) :
    t.peek storages = .ok v.path[v.index]? := by
  rw [PathTraverser.peek, h.atEnd_eq hown]
  by_cases hend : v.index = v.path.length
  · rw [beq_iff_eq.mpr hend, List.getElem?_eq_none (Nat.le_of_eq hend.symm)]
    rfl
  · have hlt := Nat.lt_of_le_of_ne h.index_le hend
    have hslug := h.deref_eq hown hlt
    rw [beq_eq_false_iff_ne.mpr hend, List.getElem?_eq_getElem hlt]
    simp only [bind, Except.bind, Bool.false_eq_true, if_false, hslug]

theorem Holds.follows (h : Holds storages fresh t v) (answer : Answer α) :
    Follows storages fresh t (answer, t) (answer, v) := ⟨rfl, h, rfl⟩

theorem Holds.follows_move (h : Holds storages fresh t v) (answer : Answer α) {index : ℕ}
    (hle : index ≤ v.path.length) :
    Follows storages fresh t (answer, { t with pos := ⟨t.path, index⟩ })
      (answer, ⟨v.path, index⟩) := ⟨rfl, h.move hle, rfl⟩

variable [DecidableEq α]

theorem Holds.checkSegment_eq (h : Holds storages fresh t v) (hown : t.pos.storage = t.path)
    (slug : α) : t.checkSegment storages slug =
      .ok (if v.path[v.index]? = some slug then (true, { t with pos := ⟨t.path, v.index + 1⟩ })
        else (false, t)) := by
  rw [PathTraverser.checkSegment, h.atEnd_eq hown]
  by_cases hend : v.index = v.path.length
  · rw [beq_iff_eq.mpr hend, List.getElem?_eq_none (Nat.le_of_eq hend.symm), if_neg nofun]
    rfl
  · have hlt := Nat.lt_of_le_of_ne h.index_le hend
    have hslug := h.deref_eq hown hlt
    have hnext := h.next_eq hown
    rw [if_neg hend] at hnext
    rw [beq_eq_false_iff_ne.mpr hend, List.getElem?_eq_getElem hlt]
    simp only [bind, Except.bind, Bool.false_eq_true, if_false, hslug, hnext, Option.some_inj]
    split <;> rfl

theorem Holds.call_related (h : Holds storages fresh t v) (hown : t.pos.storage = t.path)
    (c : Call α) : Related (Follows storages fresh t) (t.call storages c) (v.call c) := by
  cases c with
  | next =>
      rw [PathTraverser.call, h.next_eq hown, Value.call]
      split
      · exact .ok (h.follows _)
      · rename_i hend
        exact .ok (h.follows_move _ (Nat.lt_of_le_of_ne h.index_le hend))
  | prev =>
      have hsegments := h.segments_eq
      rw [← hown] at hsegments
      rw [PathTraverser.call, PathIterator.decrement, hsegments, h.index_eq, Value.call]
      split
      · exact .error _
      · have hle : v.index - 1 ≤ v.path.length := Nat.le_trans (Nat.sub_le _ _) h.index_le
        exact .ok (by rw [hown]; exact h.follows_move _ hle)
  | reset => exact .ok (h.follows_move _ (Nat.zero_le _))
  | checkSegment slug =>
      rw [PathTraverser.call, h.checkSegment_eq hown, Value.call]
      split
      · rename_i hslug
        have hlt : v.index < v.path.length := (List.getElem?_eq_some_iff.mp hslug).1
        exact .ok (h.follows_move _ hlt)
      · exact .ok (h.follows _)
  | peek =>
      rw [PathTraverser.call, h.peek_eq hown, Value.call]
      exact .ok (h.follows _)
  | atEnd =>
      rw [PathTraverser.call, h.atEnd_eq hown, Value.call]
      exact .ok (h.follows _)
  | atBeginning =>
      have heq : t.pos.eq ⟨t.path, 0⟩ = .ok (v.index == 0) := by
        rw [PathIterator.eq, if_pos hown, h.index_eq]
      rw [PathTraverser.call, heq, Value.call]
      exact .ok (h.follows _)

/-- A call that does without the segments of the iterator: `reset`, and `prev` while there are
some. -/
def Blind (storages : ℕ → Option (List α)) (t : PathTraverser) (c : Call α) : Prop :=
  match c with
  | .reset => True
  | .prev => storages t.pos.storage ≠ none
  | _ => False

theorem Holds.blind_related (h : Holds storages fresh t v) {c : Call α}
    (hblind : Blind storages t c) :
    Related (Follows storages fresh t) (t.call storages c) (v.call c) := by
  cases c with
  | reset => exact .ok (h.follows_move _ (Nat.zero_le _))
  | prev =>
      obtain ⟨segs, hsegs⟩ := Option.ne_none_iff_exists'.mp hblind
      have hsegments : segments storages t.pos.storage = .ok segs := by rw [segments, hsegs]
      rw [PathTraverser.call, PathIterator.decrement, hsegments, h.index_eq, Value.call]
      split
      · exact .error _
      · have hle : v.index - 1 ≤ v.path.length := Nat.le_trans (Nat.sub_le _ _) h.index_le
        exact .ok ⟨rfl, ⟨h.path_eq, rfl, hle, h.path_lt, h.storage_lt⟩, rfl⟩
  | next => exact hblind.elim
  | checkSegment slug => exact hblind.elim
  | peek => exact hblind.elim
  | atEnd => exact hblind.elim
  | atBeginning => exact hblind.elim

theorem Holds.call_foreign (h : Holds storages fresh t v) (hown : t.pos.storage ≠ t.path)
    {c : Call α} (hblind : ¬Blind storages t c) :
    ∃ fault, t.call storages c = .error fault ∧ (fault = .foreign ∨ fault = .dangling) := by
  have hend := h.atEnd_foreign hown
  cases c with
  | reset => exact absurd trivial hblind
  | prev =>
      have hnone : segments storages t.pos.storage = .error .dangling := by
        rw [segments, not_not.mp hblind]
      refine ⟨.dangling, ?_, .inr rfl⟩
      rw [PathTraverser.call, PathIterator.decrement, hnone]
      rfl
  | next =>
      refine ⟨.foreign, ?_, .inl rfl⟩
      rw [PathTraverser.call, PathTraverser.next, hend]
      rfl
  | checkSegment slug =>
      refine ⟨.foreign, ?_, .inl rfl⟩
      rw [PathTraverser.call, PathTraverser.checkSegment, hend]
      rfl
  | peek =>
      refine ⟨.foreign, ?_, .inl rfl⟩
      rw [PathTraverser.call, PathTraverser.peek, hend]
      rfl
  | atEnd =>
      refine ⟨.foreign, ?_, .inl rfl⟩
      rw [PathTraverser.call, hend]
      rfl
  | atBeginning =>
      have heq : t.pos.eq ⟨t.path, 0⟩ = .error .foreign := if_neg hown
      refine ⟨.foreign, ?_, .inl rfl⟩
      rw [PathTraverser.call, heq]
      rfl

end Calls

/-! ## One operation -/

section Operations

variable {m : Memory α} {vs : Values α} {name : ℕ}

/-- The traversers have what the values have, and each one has a vector of its own. -/
structure Models (m : Memory α) (vs : Values α) : Prop where
  holds : ∀ name t, m.traversers name = some t →
    ∃ v, vs name = some v ∧ Holds m.storages m.fresh t v
  unused : ∀ name, m.traversers name = none → vs name = none
  own : ∀ name name' t t', m.traversers name = some t → m.traversers name' = some t' →
    t.path = t'.path → name = name'

theorem models_empty : Models (.empty : Memory α) .empty :=
  ⟨fun _ _ => nofun, fun _ _ => rfl, fun _ _ _ _ => nofun⟩

/-- What the traverser of a name is, and its value. -/
structure Found (m : Memory α) (vs : Values α) (name : ℕ) (t : PathTraverser) (v : Value α) :
    Prop where
  traverser_eq : m.traversers name = some t
  value_eq : vs name = some v
  holds : Holds m.storages m.fresh t v

theorem Models.find (h : Models m vs) (name : ℕ) :
    Related (Found m vs name) (m.find name) (vs.find name) := by
  rw [Memory.find, Values.find]
  cases ht : m.traversers name with
  | none =>
      rw [h.unused name ht]
      exact .error _
  | some t =>
      obtain ⟨v, hv, hholds⟩ := h.holds name t ht
      rw [hv]
      exact .ok ⟨ht, hv, hholds⟩

theorem Models.checkUnused (h : Models m vs) (name : ℕ) :
    Related (fun _ _ => True) (m.checkUnused name) (vs.checkUnused name) := by
  rw [Memory.checkUnused, Values.checkUnused]
  cases ht : m.traversers name with
  | none =>
      rw [h.unused name ht]
      exact .ok trivial
  | some t =>
      obtain ⟨v, hv, -⟩ := h.holds name t ht
      rw [hv]
      exact .error _

theorem Models.of_update (h : Models m vs) {storages : ℕ → Option (List α)} {fresh : ℕ}
    {t : Option PathTraverser} {v : Option (Value α)}
    (hothers : ∀ other t, other ≠ name → m.traversers other = some t →
      storages t.path = m.storages t.path)
    (hfresh : m.fresh ≤ fresh)
    (hholds : ∀ t', t = some t' → ∃ v', v = some v' ∧ Holds storages fresh t' v')
    (hunused : t = none → v = none)
    (hown : ∀ t' other t'', t = some t' → other ≠ name → m.traversers other = some t'' →
      t'.path ≠ t''.path) :
    Models ⟨storages, fresh, update m.traversers name t⟩ (update vs name v) where
  holds other t' ht' := by
    change update m.traversers name t other = some t' at ht'
    by_cases hname : other = name
    · rw [hname, update_self] at ht' ⊢
      exact hholds t' ht'
    · rw [update_of_ne hname] at ht' ⊢
      obtain ⟨v', hv', hh⟩ := h.holds other t' ht'
      refine ⟨v', hv', ?_, hh.index_eq, hh.index_le, Nat.lt_of_lt_of_le hh.path_lt hfresh,
        Nat.lt_of_lt_of_le hh.storage_lt hfresh⟩
      change storages t'.path = _
      rw [hothers other t' hname ht', hh.path_eq]
  unused other ht' := by
    change update m.traversers name t other = none at ht'
    by_cases hname : other = name
    · rw [hname, update_self] at ht' ⊢
      exact hunused ht'
    · rw [update_of_ne hname] at ht' ⊢
      exact h.unused other ht'
  own other other' t' t'' ht' ht'' hpath := by
    change update m.traversers name t other = some t' at ht'
    change update m.traversers name t other' = some t'' at ht''
    by_cases hname : other = name
    · by_cases hname' : other' = name
      · rw [hname, hname']
      · rw [hname, update_self] at ht'
        rw [update_of_ne hname'] at ht''
        exact absurd hpath (hown t' other' t'' ht' hname' ht'')
    · rw [update_of_ne hname] at ht'
      by_cases hname' : other' = name
      · rw [hname', update_self] at ht''
        exact absurd hpath.symm (hown t'' other t' ht'' hname ht')
      · rw [update_of_ne hname'] at ht''
        exact h.own other other' t' t'' ht' ht'' hpath

theorem Models.place (h : Models m vs) (name : ℕ) {pos : PathIterator} {v : Value α}
    (hindex : pos.index = v.index) (hle : v.index ≤ v.path.length) (hpos : pos.storage ≤ m.fresh) :
    Models (m.place name v.path pos) (update vs name (some v)) := by
  have hlt : ∀ other t, m.traversers other = some t → t.path < m.fresh := by
    intro other t ht
    obtain ⟨v', -, hh⟩ := h.holds other t ht
    exact hh.path_lt
  refine h.of_update (fun other t _ ht => update_of_ne (Nat.ne_of_lt (hlt other t ht)) _ _)
    (Nat.le_succ _) ?_ nofun ?_
  · rintro t' heq
    cases heq
    exact ⟨v, rfl, update_self _ _ _, hindex, hle, Nat.lt_succ_self _, Nat.lt_succ_of_le hpos⟩
  · rintro t' other t'' heq - ht'' hpath
    cases heq
    have hfresh := hlt other t'' ht''
    rw [← hpath] at hfresh
    exact Nat.lt_irrefl _ hfresh

theorem Models.release (h : Models m vs) {t : PathTraverser} (ht : m.traversers name = some t) :
    Models (m.release name t) (update vs name none) := by
  refine h.of_update (fun other t' hother ht' => update_of_ne (fun hpath => ?_) _ _) (Nat.le_refl _)
    (fun t' => nofun) (fun _ => rfl) (fun t' other t'' => nofun)
  exact hother (h.own other name t' t ht' ht hpath)

theorem Models.set (h : Models m vs) {t t' : PathTraverser} {v : Value α}
    (ht : m.traversers name = some t) (hpath : t'.path = t.path)
    (hholds : Holds m.storages m.fresh t' v) :
    Models { m with traversers := update m.traversers name (some t') }
      (update vs name (some v)) := by
  refine h.of_update (fun _ _ _ _ => rfl) (Nat.le_refl _) ?_ nofun ?_
  · rintro t₁ heq
    cases heq
    exact ⟨v, rfl, hholds⟩
  · rintro t₁ other t₂ heq hother ht₂ hsame
    cases heq
    exact hother (h.own other name t₂ t ht₂ ht (hsame.symm.trans hpath))

variable [DecidableEq α]

/-- The calls that the iterator allows: all of them where it is one of the traverser's own
vector. -/
def Memory.Sound (m : Memory α) : Op α → Prop
  | .call name c => ∀ t, m.traversers name = some t →
      t.pos.storage = t.path ∨ Blind m.storages t c
  | _ => True

/-- The results of an operation. -/
def Alike (r : Answer α × Memory α) (r' : Answer α × Values α) : Prop :=
  r.1 = r'.1 ∧ Models r.2 r'.2

theorem Models.step_related (h : Models m vs) {op : Op α} (hsound : m.Sound op) :
    Related Alike (m.step op) (vs.step op) := by
  cases op with
  | construct name path =>
      refine (h.checkUnused name).bind fun _ _ _ => .ok ⟨rfl, ?_⟩
      exact h.place name (v := ⟨path, 0⟩) rfl (Nat.zero_le _) (Nat.le_refl _)
  | copy name source =>
      refine (h.checkUnused name).bind fun _ _ _ => (h.find source).bind fun t v ht => ?_
      rw [ht.holds.segments_eq]
      exact .ok ⟨rfl, h.place name ht.holds.index_eq ht.holds.index_le
        (Nat.le_of_lt ht.holds.storage_lt)⟩
  | assign name source =>
      refine (h.find name).bind fun old _ hold => (h.find source).bind fun t v ht => ?_
      rw [ht.holds.segments_eq]
      refine .ok ⟨rfl, ?_⟩
      by_cases hname : name = source
      · rw [if_pos hname, hname, ← ht.value_eq, update_eq_self]
        exact h
      · have hplaced := (h.release hold.traverser_eq).place name ht.holds.index_eq
          ht.holds.index_le (Nat.le_of_lt ht.holds.storage_lt)
        rw [update_idem] at hplaced
        rw [if_neg hname]
        exact hplaced
  | destroy name =>
      refine (h.find name).bind fun t v ht => .ok ⟨rfl, ?_⟩
      exact h.release ht.traverser_eq
  | call name c =>
      refine (h.find name).bind fun t v ht => ?_
      have hcall : Related (Follows m.storages m.fresh t) (t.call m.storages c) (v.call c) := by
        rcases hsound t ht.traverser_eq with hown | hblind
        · exact ht.holds.call_related hown c
        · exact ht.holds.blind_related hblind
      refine hcall.bind fun r r' hr => .ok ⟨hr.1, ?_⟩
      exact h.set ht.traverser_eq hr.2.2 hr.2.1

theorem Models.step_fault (h : Models m vs) {op : Op α} (hsound : ¬m.Sound op) :
    ∃ fault, m.step op = .error fault ∧ (fault = .foreign ∨ fault = .dangling) := by
  cases op with
  | construct name path => exact absurd trivial hsound
  | copy name source => exact absurd trivial hsound
  | assign name source => exact absurd trivial hsound
  | destroy name => exact absurd trivial hsound
  | call name c =>
      simp only [Memory.Sound, not_forall, not_or] at hsound
      obtain ⟨t, ht, hown, hblind⟩ := hsound
      obtain ⟨v, -, hholds⟩ := h.holds name t ht
      obtain ⟨fault, hcall, hfault⟩ := hholds.call_foreign hown hblind
      refine ⟨fault, ?_, hfault⟩
      have hfind : m.find name = .ok t := by rw [Memory.find, ht]
      rw [Memory.step, hfind]
      simp only [bind, Except.bind, hcall]

theorem Values.step_ne (vs : Values α) (op : Op α) :
    Sat (fun fault => fault ≠ .foreign ∧ fault ≠ .dangling) (fun _ => True) (vs.step op) := by
  have hfind : ∀ name, Sat (fun fault => fault ≠ .foreign ∧ fault ≠ .dangling) (fun _ => True)
      (vs.find name) := by
    intro name
    rw [find]
    cases vs name with
    | none => exact ⟨nofun, nofun⟩
    | some v => trivial
  have hunused : ∀ name, Sat (fun fault => fault ≠ .foreign ∧ fault ≠ .dangling) (fun _ => True)
      (vs.checkUnused name) := by
    intro name
    rw [checkUnused]
    cases vs name with
    | none => trivial
    | some v => exact ⟨nofun, nofun⟩
  cases op with
  | construct name path => exact (hunused name).bind fun _ _ => trivial
  | copy name source =>
      exact (hunused name).bind fun _ _ => (hfind source).bind fun _ _ => trivial
  | assign name source =>
      exact (hfind name).bind fun _ _ => (hfind source).bind fun _ _ => trivial
  | destroy name => exact (hfind name).bind fun _ _ => trivial
  | call name c =>
      refine (hfind name).bind fun v _ => ?_
      have hcall : Sat (fun fault => fault ≠ .foreign ∧ fault ≠ .dangling) (fun _ => True)
          (v.call c) := by
        cases c with
        | prev =>
            rw [Value.call]
            split
            · exact ⟨nofun, nofun⟩
            · trivial
        | next | checkSegment slug =>
            rw [Value.call]
            split <;> trivial
        | reset | peek | atEnd | atBeginning => trivial
      exact hcall.bind fun _ _ => trivial

end Operations

/-! ## Runs -/

section Runs

variable [DecidableEq α]

/-- The answers of a run. -/
def answers {σ : Type} (step : σ → Op α → Except Fault (Answer α × σ)) (s : σ) :
    List (Op α) → Except Fault (List (Answer α))
  | [] => .ok []
  | op :: ops => do
      let r ← step s op
      let rest ← answers step r.2 ops
      .ok (r.1 :: rest)

/-- All operations of the run are sound. -/
def Memory.SoundRun (m : Memory α) : List (Op α) → Prop
  | [] => True
  | op :: ops => m.Sound op ∧ ∀ r, m.step op = .ok r → SoundRun r.2 ops

theorem Values.answers_ne (vs : Values α) (ops : List (Op α)) :
    Sat (fun fault => fault ≠ .foreign ∧ fault ≠ .dangling) (fun _ => True)
      (answers Values.step vs ops) := by
  induction ops generalizing vs with
  | nil => trivial
  | cons op ops ih => exact (vs.step_ne op).bind fun r _ => (ih r.2).bind fun _ _ => trivial

omit [DecidableEq α] in
theorem cons_answers_inj (answer : Answer α) (x y : Except Fault (List (Answer α))) :
    ((x >>= fun rest => Except.ok (answer :: rest)) =
      (y >>= fun rest => Except.ok (answer :: rest))) ↔ x = y := by
  cases x <;> cases y <;> simp [bind, Except.bind]

theorem Models.answers_iff {m : Memory α} {vs : Values α} (h : Models m vs) (ops : List (Op α)) :
    answers Memory.step m ops = answers Values.step vs ops ↔ m.SoundRun ops := by
  induction ops generalizing m vs with
  | nil => exact iff_of_true rfl trivial
  | cons op ops ih =>
      by_cases hsound : m.Sound op
      · have hrelated := h.step_related hsound
        rw [answers, answers, Memory.SoundRun, and_iff_right hsound]
        generalize m.step op = x at hrelated
        generalize vs.step op = y at hrelated
        cases hrelated with
        | error fault => exact iff_of_true rfl fun r => nofun
        | @ok r r' hr =>
            simp only [Except.ok.injEq, forall_eq']
            rw [← ih hr.2]
            change ((answers Memory.step r.2 ops >>= fun rest => Except.ok (r.1 :: rest)) =
              (answers Values.step r'.2 ops >>= fun rest => Except.ok (r'.1 :: rest))) ↔ _
            rw [hr.1]
            exact cons_answers_inj _ _ _
      · obtain ⟨fault, hstep, hfault⟩ := h.step_fault hsound
        have hleft : answers Memory.step m (op :: ops) = .error fault := by
          rw [answers, hstep]
          rfl
        have hright := vs.answers_ne (op :: ops)
        refine iff_of_false (fun heq => ?_) fun hrun => hsound hrun.1
        rw [← heq, hleft] at hright
        rcases hfault with rfl | rfl
        · exact hright.1 rfl
        · exact hright.2 rfl

/-- In every run, the traversers answer as independent values do. -/
def CopiesIndependent (ops : List (Op α)) : Prop :=
  answers Memory.step .empty ops = answers Values.step .empty ops

/-- The copies are independent in the runs in which a copy is reset before it is used. -/
theorem copiesIndependent_iff (ops : List (Op α)) :
    CopiesIndependent ops ↔ Memory.SoundRun .empty ops :=
  models_empty.answers_iff ops

end Runs

/-- The first segment of a copy. -/
theorem not_copiesIndependent : ¬∀ ops : List (Op (List Char)), CopiesIndependent ops := by
  intro h
  have hcopies := h [.construct 0 [['a']], .copy 1 0, .call 1 .next]
  rw [CopiesIndependent] at hcopies
  revert hcopies
  decide

end Webpp.Uri.Traversers
