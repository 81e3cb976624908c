import Webpp.Db.QueryBuilder
import Mathlib.Data.List.Nodup

/-!
# What inserting a list of pairs does

The loop of `insert` ends through a pair whose name is the column that is next. So a
call that ends has appended values of some of its pairs, for the first columns in their
order, and has left the columns as they are. A list that names the columns in their
order always gets through.
-/

namespace Webpp.Db

open Loop

variable {F B : Type} {moves : Moves} {rounds : ℕ} {colsVals : List (List Char × ExprVariant F B)}
  {m' : Merge F B}

/-- The expression of a pair. -/
def pairExpr (p : List Char × ExprVariant F B) : Expr F B := p.2.expressionify

/-! ## Calls that end -/

/-- The merge has appended the values of some of the pairs it has passed, for the first
columns. -/
structure Merged (columns : List (List Char)) (values : List (Expr F B))
    (colsVals : List (List Char × ExprVariant F B)) (m : Merge F B) : Prop where
  columns_eq : m.columns = columns
  le : m.colIt ≤ columns.length
  taken : ∃ sub : List (List Char × ExprVariant F B), sub.Sublist (colsVals.take m.pos) ∧
    sub.map Prod.fst = columns.take m.colIt ∧ m.values = values ++ sub.map pairExpr

/-- The merge stands at the last pair, and the column that is next has another name.
From here on it never gets away. -/
structure Stuck (colsVals : List (List Char × ExprVariant F B)) (m : Merge F B) : Prop where
  last : m.pos + 1 = colsVals.length
  other : ∃ p column, colsVals[m.pos]? = some p ∧ m.columns[m.colIt]? = some column ∧
    p.1 ≠ column

section Rounds

variable {columns : List (List Char)} {values : List (Expr F B)} {valuesLast : ℕ}
  {colsVals : List (List Char × ExprVariant F B)} {m : Merge F B}

/-- What one round does: it passes a pair by, stands at a last pair that does not match,
or takes the value of a pair that matches. -/
theorem mergeRound_cases {flow : Flow (Merge F B) (Merge F B)}
    (h : mergeRound moves rounds valuesLast colsVals m = .ok flow) :
    ∃ p column, colsVals[m.pos]? = some p ∧ m.columns[m.colIt]? = some column ∧
      ((p.1 ≠ column ∧ m.pos + 1 ≠ colsVals.length ∧ flow = .next { m with pos := m.pos + 1 }) ∨
        (p.1 ≠ column ∧ m.pos + 1 = colsVals.length ∧
          ∃ values valid, flow = .next { m with
            columns := m.columns ++ [p.1], values := values, colItValid := valid }) ∨
        (p.1 = column ∧ ∃ valid, ∃ m' : Merge F B,
          m' = ⟨m.colIt + 1, m.pos + 1, m.columns, m.values ++ [pairExpr p], m.colItValid, valid⟩ ∧
          flow = if m.pos + 1 = colsVals.length then .done m' else .next m')) := by
  rw [mergeRound] at h
  split at h
  · cases h
  · rename_i col val hp
    split at h
    · cases h
    · split at h
      · cases h
      · rename_i column hcolumn
        refine ⟨(col, val), column, hp, hcolumn, ?_⟩
        split at h
        · rename_i hne
          split at h
          · rename_i hmore
            cases h
            exact .inl ⟨hne, hmore, rfl⟩
          · rename_i hlast
            cases hw : loop (widenRound moves m.columns.length valuesLast) .exhausted rounds
                ⟨m.columns.length, m.values, m.valuesLastValid⟩ with
            | error e =>
                rw [hw] at h
                cases h
            | ok values =>
                rw [hw] at h
                cases h
                exact .inr (.inl ⟨hne, not_not.1 hlast, values, _, rfl⟩)
        · rename_i heq
          refine .inr (.inr ⟨not_not.1 heq, m.valuesLastValid && !moves.valuesPush m.values.length,
            _, rfl, ?_⟩)
          dsimp only at h
          split at h
          · rename_i hend
            cases h
            exact (if_pos hend).symm
          · rename_i hend
            cases h
            exact (if_neg hend).symm

theorem Stuck.next (hs : Stuck colsVals m)
    (h : mergeRound moves rounds valuesLast colsVals m = .ok (.next m')) : Stuck colsVals m' := by
  obtain ⟨p, column, hp, hcolumn, hne⟩ := hs.other
  obtain ⟨p', column', hp', hcolumn', hcase⟩ := mergeRound_cases h
  obtain rfl := Option.some.inj (hp.symm.trans hp')
  obtain rfl := Option.some.inj (hcolumn.symm.trans hcolumn')
  rcases hcase with ⟨_, hmore, _⟩ | ⟨_, _, values, valid, heq⟩ | ⟨heq, _⟩
  · exact absurd hs.last hmore
  · cases heq
    have hlt : m.colIt < m.columns.length := (List.getElem?_eq_some_iff.1 hcolumn).1
    exact ⟨hs.last, p, column, hp, (List.getElem?_append_left hlt).trans hcolumn, hne⟩
  · exact absurd heq hne

theorem Stuck.not_done (hs : Stuck colsVals m) :
    mergeRound moves rounds valuesLast colsVals m ≠ .ok (.done m') := by
  intro h
  obtain ⟨p, column, hp, hcolumn, hne⟩ := hs.other
  obtain ⟨p', column', hp', hcolumn', hcase⟩ := mergeRound_cases h
  obtain rfl := Option.some.inj (hp.symm.trans hp')
  obtain rfl := Option.some.inj (hcolumn.symm.trans hcolumn')
  rcases hcase with ⟨_, _, heq⟩ | ⟨_, _, values, valid, heq⟩ | ⟨heq, _⟩
  · cases heq
  · cases heq
  · exact hne heq

theorem Merged.skip (hm : Merged columns values colsVals m) :
    Merged columns values colsVals { m with pos := m.pos + 1 } := by
  obtain ⟨sub, hsub, hnames, hvalues⟩ := hm.taken
  exact ⟨hm.columns_eq, hm.le, sub,
    hsub.trans (List.take_sublist_take_left (Nat.le_succ _)), hnames, hvalues⟩

theorem Merged.take (hm : Merged columns values colsVals m) {p : List Char × ExprVariant F B}
    (hp : colsVals[m.pos]? = some p) (hcolumn : m.columns[m.colIt]? = some p.1) (a b : Bool) :
    Merged columns values colsVals
      ⟨m.colIt + 1, m.pos + 1, m.columns, m.values ++ [pairExpr p], a, b⟩ := by
  obtain ⟨sub, hsub, hnames, hvalues⟩ := hm.taken
  have hcol : columns[m.colIt]? = some p.1 := by rw [← hm.columns_eq, hcolumn]
  refine ⟨hm.columns_eq, (List.getElem?_eq_some_iff.1 hcol).1, sub ++ [p], ?_, ?_, ?_⟩
  · rw [List.take_add_one, hp]
    exact hsub.append (List.Sublist.refl _)
  · rw [List.map_append, hnames, List.take_add_one, hcol]
    rfl
  · rw [hvalues, List.map_append, List.append_assoc]
    rfl

theorem merged_next (hm : Merged columns values colsVals m ∨ Stuck colsVals m)
    (h : mergeRound moves rounds valuesLast colsVals m = .ok (.next m')) :
    Merged columns values colsVals m' ∨ Stuck colsVals m' := by
  rcases hm with hm | hs
  · obtain ⟨p, column, hp, hcolumn, hcase⟩ := mergeRound_cases h
    rcases hcase with ⟨_, _, heq⟩ | ⟨hne, hlast, values', valid, heq⟩ | ⟨heq, valid, m'', rfl, hflow⟩
    · cases heq
      exact .inl hm.skip
    · cases heq
      have hlt : m.colIt < m.columns.length := (List.getElem?_eq_some_iff.1 hcolumn).1
      exact .inr ⟨hlast, p, column, hp, (List.getElem?_append_left hlt).trans hcolumn, hne⟩
    · subst heq
      split at hflow
      · cases hflow
      · cases hflow
        exact .inl (hm.take hp hcolumn _ _)
  · exact .inr (hs.next h)

theorem merged_done (hm : Merged columns values colsVals m ∨ Stuck colsVals m)
    (h : mergeRound moves rounds valuesLast colsVals m = .ok (.done m')) :
    Merged columns values colsVals m' := by
  rcases hm with hm | hs
  · obtain ⟨p, column, hp, hcolumn, hcase⟩ := mergeRound_cases h
    rcases hcase with ⟨_, _, heq⟩ | ⟨_, _, values', valid, heq⟩ | ⟨heq, valid, m'', rfl, hflow⟩
    · cases heq
    · cases heq
    · subst heq
      split at hflow
      · cases hflow
        exact hm.take hp hcolumn _ _
      · cases hflow
  · exact absurd h hs.not_done

end Rounds

theorem insertList_ok {q q' : Query F B} (h : q.insertList moves rounds colsVals = .ok q') :
    q.values ≠ [] ∧ q' = { q with method := .insert, values := q'.values } ∧
      ∃ sub : List (List Char × ExprVariant F B), sub.Sublist colsVals ∧
        sub.map Prod.fst = q.columns.take sub.length ∧ sub.length ≤ q.columns.length ∧
        q'.values = q.values ++ sub.map pairExpr := by
  rw [Query.insertList] at h
  split at h
  · cases h
  · rename_i hempty
    cases hrun : loop (mergeRound moves rounds (q.values.length - 1) colsVals) .exhausted rounds
        ⟨0, 0, q.columns, q.values, true, true⟩ with
    | error e =>
        rw [hrun] at h
        cases h
    | ok m =>
        rw [hrun] at h
        cases h
        have hstart : Merged q.columns q.values colsVals ⟨0, 0, q.columns, q.values, true, true⟩ :=
          ⟨rfl, Nat.zero_le _, [], by simp, by simp, by simp⟩
        have hm : Merged q.columns q.values colsVals m :=
          loop_done (fun m => Merged q.columns q.values colsVals m ∨ Stuck colsVals m) _
            (fun _ _ hm hstep => merged_next hm hstep) (fun _ _ hm hstep => merged_done hm hstep)
            (.inl hstart) hrun
        obtain ⟨sub, hsub, hnames, hvalues⟩ := hm.taken
        have hlength : sub.length = m.colIt := by
          have hlen := congrArg List.length hnames
          rw [List.length_map, List.length_take] at hlen
          exact hlen.trans (Nat.min_eq_left hm.le)
        refine ⟨by simpa using hempty, by rw [hm.columns_eq], sub,
          hsub.trans (List.take_sublist _ _), ?_, ?_, hvalues⟩
        · rw [hlength, hnames]
        · exact hlength ▸ hm.le

/-! ## Lists that name the columns in their order -/

theorem loop_matching (moves : Moves) (valuesLast inner : ℕ) {n : ℕ} :
    ∀ (rest : List (List Char × ExprVariant F B)) (k : ℕ) (values : List (Expr F B)) (valid : Bool),
      rest ≠ [] → colsVals.drop k = rest → rest.length ≤ n →
      ∃ valid', loop (mergeRound moves inner valuesLast colsVals) .exhausted n
          ⟨k, k, colsVals.map Prod.fst, values, true, valid⟩ =
        .ok ⟨colsVals.length, colsVals.length, colsVals.map Prod.fst,
          values ++ rest.map pairExpr, true, valid'⟩ := by
  intro rest
  induction rest generalizing n with
  | nil => exact fun _ _ _ hne => absurd rfl hne
  | cons p rest ih =>
      intro k values valid _ hdrop hn
      obtain ⟨n, rfl⟩ := Nat.exists_eq_add_of_le' (Nat.lt_of_lt_of_le (Nat.succ_pos _) hn)
      have hlen := congrArg List.length hdrop
      rw [List.length_drop, List.length_cons] at hlen
      have hp : colsVals[k]? = some p := by
        rw [← List.head?_drop, hdrop]
        rfl
      have hcolumn : (colsVals.map Prod.fst)[k]? = some p.1 := by
        rw [List.getElem?_map, hp]
        rfl
      have hdrop' : colsVals.drop (k + 1) = rest := by
        rw [← List.tail_drop, hdrop]
        rfl
      have hround : mergeRound moves inner valuesLast colsVals
          ⟨k, k, colsVals.map Prod.fst, values, true, valid⟩ =
            if k + 1 = colsVals.length then
              .ok (.done ⟨k + 1, k + 1, colsVals.map Prod.fst, values ++ [pairExpr p], true,
                valid && !moves.valuesPush values.length⟩)
            else .ok (.next ⟨k + 1, k + 1, colsVals.map Prod.fst, values ++ [pairExpr p], true,
                valid && !moves.valuesPush values.length⟩) := by
        rw [mergeRound]
        simp only [hp, hcolumn]
        simp [pairExpr]
      cases rest with
      | nil =>
          have hend : k + 1 = colsVals.length := by
            rw [List.length_nil] at hlen
            omega
          rw [if_pos hend, hend] at hround
          exact ⟨_, loop_of_done hround _⟩
      | cons p' rest =>
          have hend : k + 1 ≠ colsVals.length := by
            rw [List.length_cons] at hlen
            omega
          rw [if_neg hend] at hround
          obtain ⟨valid', hrun⟩ := ih (k + 1) (values ++ [pairExpr p])
            (valid && !moves.valuesPush values.length) (by simp) hdrop' (Nat.le_of_succ_le_succ hn)
          refine ⟨valid', ?_⟩
          rw [loop_of_next hround, hrun, List.append_assoc]
          rfl

theorem insertList_matching {q : Query F B}
    (hvalues : q.values ≠ []) (hne : colsVals ≠ []) (hnames : colsVals.map Prod.fst = q.columns)
    (hrounds : colsVals.length ≤ rounds) :
    q.insertList moves rounds colsVals =
      .ok { q with method := .insert, values := q.values ++ colsVals.map pairExpr } := by
  obtain ⟨valid, hrun⟩ := loop_matching moves (q.values.length - 1) rounds colsVals 0 q.values true
    hne rfl hrounds
  have hempty : ¬ q.values.isEmpty = true := by simpa using hvalues
  rw [hnames] at hrun
  rw [Query.insertList, if_neg hempty, hrun]
  rfl

theorem insertList_matching_ok {q q' : Query F B} (hne : colsVals ≠ [])
    (hnames : colsVals.map Prod.fst = q.columns) (h : q.insertList moves rounds colsVals = .ok q') :
    q' = { q with method := .insert, values := q.values ++ colsVals.map pairExpr } := by
  have hvalues := (insertList_ok h).1
  have hempty : ¬ q.values.isEmpty = true := by simpa using hvalues
  rw [Query.insertList, if_neg hempty] at h
  cases hrun : loop (mergeRound moves rounds (q.values.length - 1) colsVals) .exhausted rounds
      ⟨0, 0, q.columns, q.values, true, true⟩ with
  | error e =>
      rw [hrun] at h
      cases h
  | ok m =>
      rw [hrun] at h
      obtain ⟨valid, hfull⟩ := loop_matching moves (q.values.length - 1) rounds colsVals 0 q.values
        true hne rfl (Nat.le_add_left colsVals.length rounds)
      rw [hnames, loop_mono hrun (Nat.le_add_right rounds colsVals.length)] at hfull
      cases hfull
      cases h
      rfl

end Webpp.Db
