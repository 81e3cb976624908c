import Webpp.Db.QueryRows
import Mathlib.Data.List.Perm.Subperm

/-!
# Runs of `insert` with lists of pairs

A first row through `builder["col"] = value` and then lists of pairs. The rows are kept
exactly when every list names the columns of the first row in their order: a list in
another order or with another name either never ends, leaves the vectors, or drops a
pair without a word.
-/

namespace Webpp.Db

variable {F B : Type} {moves : Moves} {rounds : ℕ}
  {lists : List (List (List Char × ExprVariant F B))}

/-- A builder with the table names and a first row. -/
def firstRow (tables : List (List Char)) (first : Row F B) : Query F B :=
  first.foldl (fun q p => q.set p.1 p.2) (Query.empty.table tables)

/-- The calls of `insert`, one for each list. -/
def insertLists (moves : Moves) (rounds : ℕ) :
    List (List (List Char × ExprVariant F B)) → Query F B → Except InsertFault (Query F B)
  | [], q => .ok q
  | l :: ls, q => do
      let q' ← q.insertList moves rounds l
      insertLists moves rounds ls q'

/-- What is given in a list of pairs. -/
def listRow (l : List (List Char × ExprVariant F B)) : Row F B :=
  l.map fun p => (p.1, pairExpr p)

/-- The rows that are given. -/
def givenRows (first : Row F B) (lists : List (List (List Char × ExprVariant F B))) :
    List (Row F B) :=
  (if first = [] then [] else [first]) ++ lists.map listRow

/-- The run ends and keeps the rows. -/
def RowsInserted (cast : Casts F B) (moves : Moves) (tables : List (List Char)) (first : Row F B)
    (lists : List (List (List Char × ExprVariant F B))) : Prop :=
  ∃ rounds q, insertLists moves rounds lists (firstRow tables first) = .ok q ∧
    KeepsRows cast (givenRows first lists) q

/-! ## The first row -/

theorem foldl_set (q : Query F B) (row : Row F B) :
    row.foldl (fun q p => q.set p.1 p.2) q =
      { q with columns := q.columns ++ row.map Prod.fst
               values := q.values ++ row.map Prod.snd } := by
  induction row generalizing q with
  | nil => cases q; simp
  | cons p row ih =>
      rw [List.foldl_cons, ih]
      simp [Query.set]

theorem firstRow_eq (tables : List (List Char)) (first : Row F B) :
    firstRow tables first =
      { (Query.empty : Query F B) with
        fromCols := tables
        columns := first.map Prod.fst
        values := first.map Prod.snd } := by
  rw [firstRow, foldl_set]
  simp [Query.table, Query.empty]

/-! ## Lists that match -/

theorem map_snd_listRow (l : List (List Char × ExprVariant F B)) :
    (listRow l).map Prod.snd = l.map pairExpr := by
  rw [listRow, List.map_map]
  rfl

theorem map_fst_listRow (l : List (List Char × ExprVariant F B)) :
    (listRow l).map Prod.fst = l.map Prod.fst := by
  rw [listRow, List.map_map]
  rfl

theorem insertLists_matching (moves : Moves) (rounds : ℕ) {q : Query F B} (hvalues : q.values ≠ [])
    (hlists : ∀ l ∈ lists, l ≠ [] ∧ l.map Prod.fst = q.columns ∧ l.length ≤ rounds) :
    insertLists moves rounds lists q =
      .ok { q with
        method := if lists = [] then q.method else .insert
        values := q.values ++ lists.flatMap fun l => (listRow l).map Prod.snd } := by
  induction lists generalizing q with
  | nil => cases q; simp [insertLists]
  | cons l lists ih =>
      obtain ⟨hne, hnames, hlen⟩ := hlists l (by simp)
      rw [insertLists, insertList_matching hvalues hne hnames hlen]
      have hstep := @ih { q with method := .insert, values := q.values ++ l.map pairExpr }
        (by simp [hvalues]) fun l' hl' => hlists l' (by simp [hl'])
      refine hstep.trans ?_
      simp [map_snd_listRow]

/-! ## Calls that end -/

/-- A run that ends leaves the columns as they are and appends at most a value for each
column in each call. If it appends as many, each list names all columns in their order. -/
theorem insertLists_ok {q q' : Query F B} (h : insertLists moves rounds lists q = .ok q') :
    q'.columns = q.columns ∧ q'.values.length ≤ q.values.length + q.columns.length * lists.length ∧
      (q'.values.length = q.values.length + q.columns.length * lists.length →
        ∀ l ∈ lists, q.columns.Sublist (l.map Prod.fst)) := by
  induction lists generalizing q with
  | nil =>
      cases h
      simp
  | cons l lists ih =>
      rw [insertLists] at h
      cases hcall : q.insertList moves rounds l with
      | error e =>
          rw [hcall] at h
          cases h
      | ok q₁ =>
          rw [hcall] at h
          obtain ⟨_, hq₁, sub, hsub, hnames, hle, hvalues⟩ := insertList_ok hcall
          have hcols : q₁.columns = q.columns := by rw [hq₁]
          obtain ⟨hcolumns, hbound, hall⟩ := ih h
          have hlen : q₁.values.length = q.values.length + sub.length := by
            rw [hvalues, List.length_append, List.length_map]
          rw [hcols] at hcolumns hbound hall
          have hmul : q.columns.length * (l :: lists).length =
              q.columns.length * lists.length + q.columns.length := Nat.mul_succ _ _
          refine ⟨hcolumns, by omega, ?_⟩
          intro heq l' hl'
          rcases List.mem_cons.1 hl' with rfl | hl'
          · have hfull : sub.length = q.columns.length := by omega
            rw [hfull, List.take_length] at hnames
            exact hnames ▸ hsub.map Prod.fst
          · exact hall (by omega) l' hl'

theorem insertHeader_ne_nil (q : Query F B) : insertHeader q ≠ [] := by
  have hvalues : "values ".toList ≠ [] := by simp
  intro h
  unfold insertHeader at h
  exact hvalues (List.append_eq_nil_iff.1 h).2

/-- A run that keeps the rows has lists that name the columns of the first row in their
order. -/
theorem names_of_rowsInserted {cast : Casts F B} {tables : List (List Char)} {first : Row F B}
    (hlists : ∀ l ∈ lists, (l.map Prod.fst).Nodup)
    (h : RowsInserted cast moves tables first lists) :
    (first = [] → lists = []) ∧ (lists = [] → first = []) ∧
      ∀ l ∈ lists, l.map Prod.fst = first.map Prod.fst := by
  obtain ⟨rounds, q, hrun, hkeeps⟩ := h
  have hstart := firstRow_eq (F := F) (B := B) tables first
  have hempty : first = [] → lists = [] := by
    intro hfirst
    cases lists with
    | nil => rfl
    | cons l lists =>
        rw [hstart, hfirst] at hrun
        cases hrun
  refine ⟨hempty, ?_, ?_⟩
  · -- without a call of `insert` the builder prints nothing
    intro hnone
    by_contra hfirst
    subst hnone
    cases hrun
    have hprint := hkeeps.printed (by simp [givenRows, hfirst])
    have hnothing : (firstRow tables first).toString cast = some [] := by
      rw [hstart]
      rfl
    rw [hnothing] at hprint
    have hsome := hprint.symm
    rw [Option.map_eq_some_iff] at hsome
    obtain ⟨tuples, _, htext⟩ := hsome
    exact insertHeader_ne_nil _ (List.append_eq_nil_iff.1 htext).1
  · intro l hl
    have hfirst : first ≠ [] := fun hfirst => by simp [hempty hfirst] at hl
    obtain ⟨hcolumns, _, hall⟩ := insertLists_ok hrun
    have hfc : (firstRow tables first).columns = first.map Prod.fst := by rw [hstart]
    have hfv : (firstRow tables first).values.length = first.length := by
      rw [hstart, List.length_map]
    rw [hfc] at hcolumns hall
    rw [hfv] at hall
    have hsize := hkeeps.size
    rw [hcolumns, List.length_map, givenRows, if_neg hfirst] at hsize
    have hsub := hall (by simpa [Nat.mul_add, Nat.add_comm] using hsize) l hl
    have hknown : l.map Prod.fst ⊆ first.map Prod.fst := by
      intro c hc
      obtain ⟨p, hp, rfl⟩ := List.mem_map.1 hc
      have := hkeeps.known (listRow l) (by simp [givenRows]; exact .inr ⟨l, hl, rfl⟩)
        (p.1, pairExpr p) (List.mem_map_of_mem (f := fun p => (p.1, pairExpr p)) hp)
      rwa [hcolumns] at this
    exact (hsub.eq_of_length_le (List.subperm_of_subset (hlists l hl) hknown).length_le).symm

/-- Casts and vectors for runs on fixed inputs: nothing moves. -/
def plainCasts : Casts Unit Unit := ⟨fun _ => ['0'], fun _ => ['0']⟩

def noMoves : Moves := ⟨fun _ => false, fun _ => false, fun _ => false⟩

end Webpp.Db
