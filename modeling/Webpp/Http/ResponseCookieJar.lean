import Mathlib.Data.List.Lex
import Mathlib.Data.Prod.Lex
import Webpp.Http.ResponseCookie
import Webpp.Foundation.AdjacentUnique

/-!
# The setters of a cookie jar

A setter that is called with an iterator turns it into an `iterator` with `remove_const` and
sets the field of the cookie there. A reverse iterator denotes the cookie in front of its base,
and `remove_const` gives the base itself.

The overloads for the const iterators do not compile as they stand: `distance` is called with
two types, and `rcend` is no member. Here they do what their expressions say.
-/

namespace Webpp.Http

variable {ε : Type} {jar : List (ResponseCookie ε)} {a b : ResponseCookie ε}

/-- An iterator into a jar of `n` cookies. The forward ones have the place they point at, the
reverse ones the place of their base. -/
inductive JarIterator (n : ℕ) where
  | iterator (pos : Fin (n + 1))
  | constIterator (pos : Fin (n + 1))
  | reverseIterator (base : Fin (n + 1))
  | constReverseIterator (base : Fin (n + 1))

namespace JarIterator

variable {n : ℕ}

/-- The place of the cookie that a reverse iterator with this base denotes. -/
def denotedReverse (base : ℕ) : Option ℕ := if base = 0 then none else some (base - 1)

/-- The place of the cookie; a past-the-end iterator has none. -/
def denoted : JarIterator n → Option ℕ
  | iterator pos => if pos.val = n then none else some pos
  | constIterator pos => if pos.val = n then none else some pos
  | reverseIterator base => denotedReverse base
  | constReverseIterator base => denotedReverse base

/-- `begin` advanced by the distance from `begin` to the base, or `end` for `rend`. -/
def removeConstReverse (n base : ℕ) : ℕ := if base = 0 then n else 0 + (base - 0)

/-- `remove_const`, as the distance of the result from `begin`. -/
def removeConst : JarIterator n → ℕ
  | iterator pos => pos
  | constIterator pos => if pos.val = n then n else 0 + (pos.val - 0)
  | reverseIterator base => removeConstReverse n base
  | constReverseIterator base => removeConstReverse n base

end JarIterator

/-- `DEFINE_METHOD` with an iterator and the new value: every setter of a cookie but
`priority` and `version` is one of the jar. -/
def setField (jar : List (ResponseCookie ε)) (it : JarIterator jar.length) (s : CookieSetter ε) :
    List (ResponseCookie ε) :=
  if it.removeConst ≠ jar.length then jar.modify it.removeConst s.apply else jar

/-- The cookie that the iterator denotes has the new value in the field, and nothing else is
changed. -/
structure SetsItsCookie (jar : List (ResponseCookie ε)) (it : JarIterator jar.length)
    (s : CookieSetter ε) : Prop where
  denoted : ∀ i c, it.denoted = some i → jar[i]? = some c →
    (setField jar it s)[i]? = some (s.write c)
  others : ∀ i, it.denoted ≠ some i → (setField jar it s)[i]? = jar[i]?

/-! ## The place that is set -/

theorem getElem?_setField (jar : List (ResponseCookie ε)) (it : JarIterator jar.length)
    (s : CookieSetter ε) (i : ℕ) :
    (setField jar it s)[i]? =
      if i = it.removeConst then jar[i]?.map s.apply else jar[i]? := by
  rw [setField]
  by_cases hend : it.removeConst = jar.length
  · rw [if_neg (not_not_intro hend), hend]
    split
    · rename_i hi
      rw [hi, List.getElem?_eq_none (Nat.le_refl _)]
      rfl
    · rfl
  · rw [if_pos hend]
    by_cases hi : it.removeConst = i
    · rw [if_pos hi.symm, hi, List.getElem?_modify_eq]
      rfl
    · rw [if_neg (fun h => hi h.symm), List.getElem?_modify_ne _ _ hi]

theorem setField_at {it : JarIterator jar.length} {i : ℕ}
    (h : it.removeConst = i) (s : CookieSetter ε) :
    (setField jar it s)[i]? = jar[i]?.map s.apply := by
  rw [getElem?_setField, if_pos h.symm]

theorem setField_other {it : JarIterator jar.length} {i : ℕ}
    (h : i ≠ it.removeConst) (s : CookieSetter ε) : (setField jar it s)[i]? = jar[i]? := by
  rw [getElem?_setField, if_neg h]

theorem setsItsCookie_forward {it : JarIterator jar.length}
    {pos : ℕ} (hdenoted : it.denoted = if pos = jar.length then none else some pos)
    (hpos : it.removeConst = pos) (s : CookieSetter ε) :
    SetsItsCookie jar it s ↔
      ∀ c, jar[pos]? = some c → s.isMaxAge = true → c.expires = none := by
  have hat : ∀ c, jar[pos]? = some c → (setField jar it s)[pos]? = some (s.apply c) := by
    intro c hc
    rw [setField_at hpos, hc]
    rfl
  constructor
  · intro h c hc
    have hlt : pos ≠ jar.length := (List.getElem?_eq_some_iff.mp hc).1.ne
    have hset := h.denoted pos c (by rw [hdenoted, if_neg hlt]) hc
    rw [hat c hc] at hset
    exact (s.apply_eq_write_iff c).mp (Option.some_inj.mp hset)
  · intro h
    constructor
    · intro i c hi hc
      have hipos : i = pos := by
        rw [hdenoted] at hi
        split at hi
        · cases hi
        · exact (Option.some_inj.mp hi).symm
      rw [hipos] at hc ⊢
      rw [hat c hc, (s.apply_eq_write_iff c).mpr (h c hc)]
    · intro i hi
      by_cases hipos : i = pos
      · -- only the end is at the place and not denoted
        have hend : pos = jar.length := by
          by_contra hne
          rw [hdenoted, if_neg hne, hipos] at hi
          exact hi rfl
        rw [hipos, setField_at hpos, List.getElem?_eq_none (Nat.le_of_eq hend.symm)]
        rfl
      · exact setField_other (by rw [hpos]; exact hipos) s

theorem setsItsCookie_reverse {it : JarIterator jar.length}
    {base : ℕ} (hdenoted : it.denoted = JarIterator.denotedReverse base)
    (hbase : it.removeConst = JarIterator.removeConstReverse jar.length base) (s : CookieSetter ε) :
    SetsItsCookie jar it s ↔
      ∀ i, base = i + 1 → (∀ c, jar[i]? = some c → s.write c = c) ∧
        ∀ c, jar[i + 1]? = some c → s.apply c = c := by
  cases base with
  | zero =>
      refine iff_of_true ⟨fun i c hi => ?_, fun i _ => ?_⟩ (fun i h => absurd h (by omega))
      · rw [hdenoted] at hi
        cases hi
      · by_cases hi : i = it.removeConst
        · rw [setField_at hi.symm, List.getElem?_eq_none (Nat.le_of_eq (hbase.symm.trans hi.symm))]
          rfl
        · exact setField_other hi s
  | succ j =>
      have hplace : it.removeConst = j + 1 := hbase.trans (Nat.zero_add _)
      have hden : it.denoted = some j := hdenoted
      constructor
      · rintro h i hij
        obtain rfl : j = i := Nat.succ.inj hij
        constructor
        · intro c hc
          have hset := h.denoted j c hden hc
          rw [setField_other (by omega), hc] at hset
          exact (Option.some_inj.mp hset).symm
        · intro c hc
          have hset := h.others (j + 1) (by rw [hden]; simp)
          rw [setField_at hplace, hc] at hset
          exact Option.some_inj.mp hset
      · intro h
        obtain ⟨hwrite, happly⟩ := h j rfl
        constructor
        · intro i c hi hc
          obtain rfl : j = i := Option.some_inj.mp (hden.symm.trans hi)
          rw [setField_other (by omega), hwrite c hc, hc]
        · intro i hi
          by_cases hij : i = j + 1
          · rw [hij, setField_at hplace]
            cases hc : jar[j + 1]? with
            | none => rfl
            | some c => exact congrArg some (happly c hc)
          · exact setField_other (by omega) s

/-! ## All iterators -/

/-- Where a setter sets what it should: a forward iterator, unless `max_age` takes a date away;
of the reverse ones `rend`, and one whose cookie has the value already, where the setter
changes nothing of the cookie behind it either. -/
def SetsRightly (jar : List (ResponseCookie ε)) (s : CookieSetter ε) :
    JarIterator jar.length → Prop
  | .iterator pos | .constIterator pos =>
      ∀ c, jar[pos.val]? = some c → s.isMaxAge = true → c.expires = none
  | .reverseIterator base | .constReverseIterator base =>
      ∀ i, base.val = i + 1 → (∀ c, jar[i]? = some c → s.write c = c) ∧
        ∀ c, jar[i + 1]? = some c → s.apply c = c

end Webpp.Http

/-!
# `remove_duplicates`

A jar is sorted with a predicate that is true where the names or else the domains are in
order, and then of neighbours that are the same the last is kept. Two cookies may each be
before the other. Where that does not happen, names and domains grow together, and the jar
is sorted by both, in any order of the cookies that share them.
-/

namespace Webpp.Http

open AdjacentUnique

variable {ε : Type}

namespace ResponseCookie

/-- The parts of a cookie that `same_as` compares. -/
def identity (c : ResponseCookie ε) : List Char × List Char × List Char :=
  (trim c.name, c.path, c.domain)

def sameAs (a b : ResponseCookie ε) : Bool :=
  trim a.name == trim b.name && a.path == b.path && b.domain == a.domain

theorem sameAs_iff (a b : ResponseCookie ε) : a.sameAs b = true ↔ a.identity = b.identity := by
  rw [sameAs, Bool.and_eq_true, Bool.and_eq_true, beq_iff_eq, beq_iff_eq, beq_iff_eq, identity,
    identity, Prod.mk.injEq, Prod.mk.injEq, and_assoc, eq_comm (a := b.domain)]

end ResponseCookie

/-! ## Sorting and removing -/

/-- `predicate`. -/
def sortsBefore (a b : ResponseCookie ε) : Bool :=
  decide (trim a.name < trim b.name) || decide (a.domain < b.domain)

/-- What `std::sort` asks of a comparison, for the elements it is given. -/
structure StrictWeakOn {α : Type} (before : α → α → Bool) (l : List α) : Prop where
  irrefl : ∀ a ∈ l, before a a = false
  trans : ∀ a ∈ l, ∀ b ∈ l, ∀ c ∈ l, before a b = true → before b c = true → before a c = true
  incomparable : ∀ a ∈ l, ∀ b ∈ l, ∀ c ∈ l, before a b = false ∧ before b a = false →
    before b c = false ∧ before c b = false → before a c = false ∧ before c a = false

/-- The jars that `std::sort`, which is not stable, may leave. -/
def SortResult (jar sorted : List (ResponseCookie ε)) : Prop :=
  sorted.Perm jar ∧ sorted.Pairwise (fun a b => sortsBefore b a = false)

/-- `std::unique` from behind; what is in front of its result is erased. -/
def eraseDuplicates (sorted : List (ResponseCookie ε)) : List (ResponseCookie ε) :=
  keepLast ResponseCookie.sameAs sorted

/-- `remove_duplicates` may leave the cookies `remaining`. -/
def RemoveDuplicates (jar remaining : List (ResponseCookie ε)) : Prop :=
  ∃ sorted, SortResult jar sorted ∧ remaining = eraseDuplicates sorted

/-- No two cookies are the same, and each cookie of the jar is the same as one, which is
the last of its kind in the jar. -/
structure LastAdded (jar remaining : List (ResponseCookie ε)) : Prop where
  distinct : remaining.Pairwise (fun a b => a.sameAs b = false)
  last : ∀ c ∈ jar, ∃ d, (jar.filter (fun b => b.sameAs c)).getLast? = some d ∧
    remaining.filter (fun b => b.sameAs c) = [d]

/-- The comparison is one to sort with, and whatever the sort leaves, the cookies added last
remain. -/
structure DuplicatesRemoved (jar : List (ResponseCookie ε)) : Prop where
  ordered : StrictWeakOn sortsBefore jar
  remaining : ∀ remaining, RemoveDuplicates jar remaining → LastAdded jar remaining

/-! ## The order -/

/-- No cookie has a smaller name and a greater domain than another one. -/
def GrowTogether (jar : List (ResponseCookie ε)) : Prop :=
  ∀ a ∈ jar, ∀ b ∈ jar, trim a.name < trim b.name → a.domain ≤ b.domain

/-- What jars that grow together are sorted by. -/
def sortKey (c : ResponseCookie ε) : List Char ×ₗ List Char := toLex (trim c.name, c.domain)

theorem sortsBefore_iff (a b : ResponseCookie ε) :
    sortsBefore a b = true ↔ trim a.name < trim b.name ∨ a.domain < b.domain := by
  rw [sortsBefore, Bool.or_eq_true, decide_eq_true_eq, decide_eq_true_eq]

theorem GrowTogether.sortsBefore_iff (h : GrowTogether jar) (ha : a ∈ jar) (hb : b ∈ jar) :
    sortsBefore a b = true ↔ sortKey a < sortKey b := by
  rw [Http.sortsBefore_iff, Prod.Lex.lt_iff]
  refine or_congr_right' fun hname => ⟨fun hdomain => ⟨?_, hdomain⟩, fun hkey => hkey.2⟩
  refine le_antisymm (not_lt.mp fun hlt => ?_) (not_lt.mp hname)
  exact absurd (h b hb a ha hlt) (not_le.mpr hdomain)

theorem GrowTogether.sortsBefore_eq_false (h : GrowTogether jar) (ha : a ∈ jar) (hb : b ∈ jar) :
    sortsBefore a b = false ↔ sortKey b ≤ sortKey a := by
  rw [← Bool.not_eq_true, h.sortsBefore_iff ha hb, not_lt]

theorem strictWeakOn_iff (jar : List (ResponseCookie ε)) :
    StrictWeakOn sortsBefore jar ↔ GrowTogether jar := by
  constructor
  · intro h a ha b hb hname
    by_contra hdomain
    have hab : sortsBefore a b = true := (sortsBefore_iff a b).mpr (.inl hname)
    have hba : sortsBefore b a = true := (sortsBefore_iff b a).mpr (.inr (not_le.mp hdomain))
    have haa := h.trans a ha b hb a ha hab hba
    rw [h.irrefl a ha] at haa
    exact Bool.false_ne_true haa
  · intro h
    constructor
    · intro a ha
      exact (h.sortsBefore_eq_false ha ha).mpr le_rfl
    · intro a ha b hb c hc hab hbc
      rw [h.sortsBefore_iff ha hb] at hab
      rw [h.sortsBefore_iff hb hc] at hbc
      exact (h.sortsBefore_iff ha hc).mpr (hab.trans hbc)
    · intro a ha b hb c hc hab hbc
      rw [h.sortsBefore_eq_false ha hb, h.sortsBefore_eq_false hb ha] at hab
      rw [h.sortsBefore_eq_false hb hc, h.sortsBefore_eq_false hc hb] at hbc
      rw [h.sortsBefore_eq_false ha hc, h.sortsBefore_eq_false hc ha]
      exact ⟨hbc.1.trans hab.1, hab.2.trans hbc.2⟩

theorem GrowTogether.sortResult_iff (h : GrowTogether jar) (sorted : List (ResponseCookie ε)) :
    SortResult jar sorted ↔
      sorted.Perm jar ∧ sorted.Pairwise (fun a b => sortKey a ≤ sortKey b) := by
  refine and_congr_right fun hperm => ?_
  refine List.Pairwise.iff_of_mem fun {a b} ha hb => ?_
  exact h.sortsBefore_eq_false (hperm.mem_iff.mp hb) (hperm.mem_iff.mp ha)

theorem sortKey_of_identity (h : a.identity = b.identity) :
    sortKey a = sortKey b := by
  rw [ResponseCookie.identity, ResponseCookie.identity, Prod.mk.injEq, Prod.mk.injEq] at h
  rw [sortKey, sortKey, h.1, h.2.2]

/-! ## The cookies that remain -/

theorem sameAs_eq_decide (a b : ResponseCookie ε) :
    a.sameAs b = decide (a.identity = b.identity) := by
  rw [Bool.eq_iff_iff, ResponseCookie.sameAs_iff, decide_eq_true_eq]

theorem lastAdded_iff (jar remaining : List (ResponseCookie ε)) :
    LastAdded jar remaining ↔ KeepsLast ResponseCookie.identity jar remaining := by
  have hclass : ∀ (c : ResponseCookie ε) (l : List (ResponseCookie ε)),
      l.filter (fun b => b.sameAs c) = classOf ResponseCookie.identity c l := by
    intro c l
    rw [classOf]
    exact List.filter_congr fun b _ => sameAs_eq_decide b c
  have hdistinct : ∀ a b : ResponseCookie ε, a.sameAs b = false ↔ a.identity ≠ b.identity := by
    intro a b
    rw [sameAs_eq_decide, decide_eq_false_iff_not]
  constructor
  · intro h
    refine ⟨h.distinct.imp fun {a b} => (hdistinct a b).mp, fun c hc => ?_⟩
    obtain ⟨d, hlast, hd⟩ := h.last c hc
    rw [hclass] at hlast hd
    exact ⟨d, hlast, hd⟩
  · intro h
    refine ⟨h.distinct.imp fun {a b} => (hdistinct a b).mpr, fun c hc => ?_⟩
    obtain ⟨d, hlast, hd⟩ := h.last c hc
    rw [← hclass] at hlast hd
    exact ⟨d, hlast, hd⟩

/-- Two cookies of the jar are not the same, or they are equal and all cookies with their
name and domain have their path. -/
def Harmless (jar : List (ResponseCookie ε)) (a b : ResponseCookie ε) : Prop :=
  a.sameAs b = true →
    a = b ∧ ∀ c ∈ jar, trim c.name = trim a.name → c.domain = a.domain → c.path = a.path

theorem harmless_iff (jar : List (ResponseCookie ε)) (a b : ResponseCookie ε) :
    Harmless jar a b ↔ Alone ResponseCookie.identity sortKey jar a b := by
  rw [Harmless, Alone, ResponseCookie.sameAs_iff]
  refine imp_congr_right fun _ => and_congr_right fun _ => ?_
  refine forall₂_congr fun c _ => ?_
  constructor
  · intro h hkey
    rw [sortKey, sortKey, toLex_inj, Prod.mk.injEq] at hkey
    rw [ResponseCookie.identity, ResponseCookie.identity, h hkey.1 hkey.2, hkey.1, hkey.2]
  · intro h hname hdomain
    have hidentity := h (by rw [sortKey, sortKey, hname, hdomain])
    rw [ResponseCookie.identity, ResponseCookie.identity, Prod.mk.injEq, Prod.mk.injEq]
      at hidentity
    exact hidentity.2.1

end Webpp.Http
