import Webpp.Db.QueryShape

/-!
# Runs of the query builder

The calls of a run, and what a reader finds in the text at its end: as long as no
column name expression is used and every call fits the state it is made in, the literals
are the strings that were given, and the kinds of the tokens depend on the calls without
their strings.
-/

namespace Webpp.Db

open QuotedText

variable {F B : Type} {q r : Query F B} {moves : Moves} {q : Query F B} {e : Expr F B}

/-- The members of the `where_in` family that take expressions. -/
inductive InMember where
  | whereIn | whereNotIn | andWhereIn | orWhereIn | orWhereNotIn | andWhereNotIn
  deriving DecidableEq

/-- The members of the `where_in` family that take a query. -/
inductive InSelectMember where
  | whereIn | whereNotIn | andWhereNotIn | orWhereIn | orWhereNotIn
  deriving DecidableEq

/-- The calls of a query builder. -/
inductive Call (F B : Type) where
  | table (names : List (List Char))
  | set (key : List Char) (value : Expr F B)
  | select (cols : List (List Char))
  | where_ (expr1 expr2 : Expr F B)
  | whereIn (member : InMember) (expr1 expr2 : Expr F B) (exprs : List (Expr F B))
  | whereInSelect (member : InSelectMember) (expr1 : Expr F B) (selectQuery : Query F B)
  | leftJoinUsing (table : List Char ⊕ Query F B) (colNames : List (List Char))
  | rightJoinUsing (table : List Char ⊕ Query F B) (colNames : List (List Char))
  | insertDefault
  | insert
  | insertQuery (newBuilder : Query F B)
  | insertList (colsVals : List (List Char × ExprVariant F B))
  | update
  | remove

def InMember.apply (q : Query F B) : InMember → Expr F B → List (Expr F B) → Query F B
  | .whereIn => q.whereIn
  | .whereNotIn => q.whereNotIn
  | .andWhereIn => q.andWhereIn
  | .orWhereIn => q.orWhereIn
  | .orWhereNotIn => q.orWhereNotIn
  | .andWhereNotIn => q.andWhereNotIn

def InSelectMember.apply (q : Query F B) : InSelectMember → Expr F B → Query F B → Query F B
  | .whereIn => q.whereInSelect
  | .whereNotIn => q.whereNotInSelect
  | .andWhereNotIn => q.andWhereNotInSelect
  | .orWhereIn => q.orWhereInSelect
  | .orWhereNotIn => q.orWhereNotInSelect

/-- The connective of a member, if it appends. -/
def InMember.conn : InMember → Option Connective
  | .whereIn | .whereNotIn => none
  | .andWhereIn | .andWhereNotIn => some .and_
  | .orWhereIn | .orWhereNotIn => some .or_

def InMember.op : InMember → InOp
  | .whereIn | .andWhereIn | .orWhereIn => .in_
  | .whereNotIn | .orWhereNotIn | .andWhereNotIn => .notIn

theorem InMember.apply_eq (member : InMember) (q : Query F B) (expr1 : Expr F B)
    (exprs : List (Expr F B)) :
    member.apply q expr1 exprs = q.whereInExprs member.conn member.op expr1 exprs := by
  cases member <;> rfl

def InSelectMember.conn : InSelectMember → Option Connective
  | .whereIn | .whereNotIn => none
  | .andWhereNotIn => some .and_
  | .orWhereIn | .orWhereNotIn => some .or_

def InSelectMember.op : InSelectMember → InOp
  | .whereIn | .orWhereIn => .in_
  | .whereNotIn | .andWhereNotIn | .orWhereNotIn => .notIn

theorem InSelectMember.apply_eq (member : InSelectMember) (q : Query F B) (expr1 : Expr F B)
    (selectQuery : Query F B) :
    member.apply q expr1 selectQuery =
      q.whereInQuery member.conn member.op expr1 selectQuery := by
  cases member <;> rfl

/-- What a call does to the builder. -/
def Call.apply (moves : Moves) (rounds : ℕ) (q : Query F B) :
    Call F B → Except InsertFault (Query F B)
  | .table names => .ok (q.table names)
  | .set key value => .ok (q.set key value)
  | .select cols => .ok (q.select cols)
  | .where_ expr1 expr2 => .ok (q.where_ expr1 expr2)
  | .whereIn member expr1 expr2 exprs => .ok (member.apply q expr1 (expr2 :: exprs))
  | .whereInSelect member expr1 selectQuery => .ok (member.apply q expr1 selectQuery)
  | .leftJoinUsing source colNames => .ok (q.leftJoinUsing source colNames)
  | .rightJoinUsing source colNames => .ok (q.rightJoinUsing source colNames)
  | .insertDefault => .ok q.insertDefault
  | .insert => .ok q.insert
  | .insertQuery newBuilder => .ok (q.insertQuery newBuilder)
  | .insertList colsVals => q.insertList moves rounds colsVals
  | .update => .ok q.update
  | .remove => .ok q.remove

/-! ## Calls that fit -/

/-- The queries among the arguments of a call. -/
def Call.queries : Call F B → List (Query F B)
  | .set _ value => value.queries
  | .where_ expr1 expr2 => expr1.queries ++ expr2.queries
  | .whereIn _ expr1 expr2 exprs => expr1.queries ++ exprsQueries (expr2 :: exprs)
  | .whereInSelect _ expr1 selectQuery => expr1.queries ++ [selectQuery]
  | .leftJoinUsing (.inr query) _ => [query]
  | .rightJoinUsing (.inr query) _ => [query]
  | .insertQuery newBuilder => [newBuilder]
  | _ => []

/-- A value that is not a blob. -/
def ExprVariant.NoBlob : ExprVariant F B → Prop
  | .blob _ => False
  | _ => True

/-- The call fits the state of the builder: its expressions are plain, a select list has no
quotes and does not mix with other columns, a join names a column, and a list of pairs
names the columns in their order. -/
def Call.Fits (q : Query F B) : Call F B → Prop
  | .set _ value => q.method ≠ .select ∧ value.Plain
  | .select cols =>
      (∀ c ∈ cols, quoteChar ∉ c) ∧ (q.method = .select ∨ q.columns = [])
  | .where_ expr1 expr2 => expr1.Plain ∧ expr2.Plain
  | .whereIn _ expr1 expr2 exprs => expr1.Plain ∧ exprsPlain (expr2 :: exprs)
  | .whereInSelect _ expr1 _ => expr1.Plain
  | .leftJoinUsing _ colNames => colNames ≠ []
  | .rightJoinUsing _ colNames => colNames ≠ []
  | .insertList colsVals =>
      q.values ≠ [] ∧ colsVals ≠ [] ∧ colsVals.map Prod.fst = q.columns ∧
        ∀ p ∈ colsVals, p.2.NoBlob
  | _ => True

/-- Runs whose calls all fit. The queries among the arguments are built by such runs, and
their values fit their columns. -/
inductive FittingRun (moves : Moves) : Query F B → List (Call F B) → Query F B → Prop where
  | nil (q : Query F B) : FittingRun moves q [] q
  | cons {q q₁ q' : Query F B} {c : Call F B} {cs : List (Call F B)} (rounds : ℕ)
      (runOf : Query F B → List (Call F B)) (hfits : c.Fits q)
      (haligned : ∀ s ∈ c.queries, s.Aligned)
      (hruns : ∀ s ∈ c.queries, FittingRun moves .empty (runOf s) s)
      (hstep : c.apply moves rounds q = .ok q₁) (hrest : FittingRun moves q₁ cs q') :
      FittingRun moves q (c :: cs) q'

/-! ## What a run keeps -/

section Fields

variable {cast : Casts F B}

theorem fieldsRead_empty : FieldsRead cast (Query.empty : Query F B) :=
  ⟨by simp [Query.empty], by simp [Query.empty], by simp [Query.empty], by simp [Query.empty],
    by simp [Query.empty], by simp [Query.empty]⟩

theorem FieldsRead.clause (h : FieldsRead cast q)
    (he : e.Reads cast) : FieldsRead cast { q with whereClauses := [e] } where
  values := h.values
  selectStmt := h.selectStmt
  whereClauses := by
    intro e' he'
    rw [List.mem_singleton] at he'
    exact he' ▸ he
  connected := by simp
  joins := h.joins
  columns := h.columns

theorem Expr.Reads.unary (h : e.Reads cast) (op : UnaryOp) :
    (Expr.unary op e).Reads cast := by
  obtain ⟨ps, hps, hshows⟩ := h
  exact ⟨_, by rw [Expr.pieces, hps]; rfl, hshows.word (plainWord_unaryOp op) false⟩

theorem FieldsRead.appendClause (h : FieldsRead cast q) (he : e.Reads cast) (op : UnaryOp) :
    FieldsRead cast { q with whereClauses := q.whereClauses ++ [.unary op e] } where
  values := h.values
  selectStmt := h.selectStmt
  whereClauses := by
    intro e' he'
    rcases List.mem_append.1 he' with he' | he'
    · exact h.whereClauses e' he'
    · rw [List.mem_singleton] at he'
      exact he' ▸ he.unary op
  connected := by
    intro e' he'
    cases hw : q.whereClauses with
    | nil => simp [hw] at he'
    | cons e₀ es =>
        have hconn := h.connected
        rw [hw] at he' hconn
        rcases List.mem_append.1 he' with he' | he'
        · exact hconn e' he'
        · rw [List.mem_singleton] at he'
          exact ⟨op, e, he'⟩
  joins := h.joins
  columns := h.columns

theorem fieldsRead_whereInExprs (h : FieldsRead cast q)
    (hfloat : ∀ f, quoteChar ∉ cast.float f) (conn : Option Connective) (op : InOp)
    {expr1 expr2 : Expr F B} {exprs : List (Expr F B)} (h1 : expr1.Plain)
    (h2 : exprsPlain (expr2 :: exprs))
    (hqueries : ∀ s ∈ expr1.queries ++ exprsQueries (expr2 :: exprs), s.Reads cast) :
    FieldsRead cast (q.whereInExprs conn op expr1 (expr2 :: exprs)) := by
  have hreads : (Expr.inExpr op expr1 (expr2 :: exprs) none).Reads cast := by
    refine Expr.reads hfloat _ ⟨h1, h2, by simp⟩ fun s hs => hqueries s ?_
    simpa [Expr.queries] using hs
  cases conn with
  | none => exact h.clause hreads
  | some c => exact h.appendClause hreads c.op

theorem fieldsRead_whereInQuery (h : FieldsRead cast q)
    (hfloat : ∀ f, quoteChar ∉ cast.float f) (conn : Option Connective) (op : InOp)
    {expr1 : Expr F B} {selectQuery : Query F B} (h1 : expr1.Plain)
    (hqueries : ∀ s ∈ expr1.queries ++ [selectQuery], s.Reads cast) :
    FieldsRead cast (q.whereInQuery conn op expr1 selectQuery) := by
  have hreads : (Expr.inExpr op expr1 [] (some selectQuery)).Reads cast := by
    refine Expr.reads hfloat _ ⟨h1, trivial, by simp⟩ fun s hs => hqueries s ?_
    simpa [Expr.queries, exprsQueries] using hs
  cases conn with
  | none =>
      rw [Query.whereInQuery]
      split
      · exact h
      · exact h.clause hreads
  | some c =>
      rw [Query.whereInQuery]
      split
      · exact h
      · split
        · exact h
        · exact h.appendClause hreads c.op

theorem fieldsRead_joinUsing (h : FieldsRead cast q) (cat : JoinCat)
    {table : List Char ⊕ Query F B} {colNames : List (List Char)} (hcols : colNames ≠ [])
    (htable : ∀ s, table = .inr s → s.Reads cast) :
    FieldsRead cast (q.joinUsing cat table colNames) where
  values := h.values
  selectStmt := h.selectStmt
  whereClauses := h.whereClauses
  connected := h.connected
  joins := by
    intro j hj
    rcases List.mem_append.1 hj with hj | hj
    · exact h.joins j hj
    · rw [List.mem_singleton] at hj
      exact hj ▸ Join.reads_using hcols htable
  columns := h.columns

theorem pairExpr_reads (hfloat : ∀ f, quoteChar ∉ cast.float f)
    {p : List Char × ExprVariant F B} (hp : p.2.NoBlob) : (pairExpr p).Reads cast := by
  rw [pairExpr]
  cases hv : p.2 with
  | monostate => exact Expr.reads hfloat _ trivial (by simp [ExprVariant.expressionify, Expr.queries])
  | float val => exact Expr.reads hfloat _ trivial (by simp [ExprVariant.expressionify, Expr.queries])
  | integer val =>
      exact Expr.reads hfloat _ trivial (by simp [ExprVariant.expressionify, Expr.queries])
  | string val =>
      exact Expr.reads hfloat _ trivial (by simp [ExprVariant.expressionify, Expr.queries])
  | blob val =>
      rw [hv] at hp
      exact hp.elim

theorem fieldsRead_apply {rounds : ℕ} {q q' : Query F B} {c : Call F B}
    (hfloat : ∀ f, quoteChar ∉ cast.float f) (h : FieldsRead cast q) (hfits : c.Fits q)
    (hqueries : ∀ s ∈ c.queries, s.Reads cast) (hstep : c.apply moves rounds q = .ok q') :
    FieldsRead cast q' := by
  cases c with
  | table names =>
      cases hstep
      exact ⟨h.values, h.selectStmt, h.whereClauses, h.connected, h.joins, h.columns⟩
  | set key value =>
      cases hstep
      refine ⟨?_, h.selectStmt, h.whereClauses, h.connected, h.joins,
        fun hm => absurd hm hfits.1⟩
      intro e he
      rcases List.mem_append.1 he with he | he
      · exact h.values e he
      · rw [List.mem_singleton] at he
        exact he ▸ Expr.reads hfloat value hfits.2 hqueries
  | select cols =>
      cases hstep
      refine ⟨h.values, h.selectStmt, h.whereClauses, h.connected, h.joins, fun _ c hc => ?_⟩
      rcases List.mem_append.1 hc with hc | hc
      · rcases hfits.2 with hm | hnone
        · exact h.columns hm c hc
        · rw [hnone] at hc
          exact absurd hc List.not_mem_nil
      · exact hfits.1 c hc
  | where_ expr1 expr2 =>
      cases hstep
      exact h.clause (Expr.reads hfloat (.binary .eq expr1 expr2) hfits hqueries)
  | whereIn member expr1 expr2 exprs =>
      cases hstep
      rw [InMember.apply_eq]
      exact fieldsRead_whereInExprs h hfloat _ _ hfits.1 hfits.2 hqueries
  | whereInSelect member expr1 selectQuery =>
      cases hstep
      rw [InSelectMember.apply_eq]
      exact fieldsRead_whereInQuery h hfloat _ _ hfits hqueries
  | leftJoinUsing table colNames =>
      cases hstep
      exact fieldsRead_joinUsing h .left hfits fun s hs => hqueries s (by subst hs; exact .head _)
  | rightJoinUsing table colNames =>
      cases hstep
      exact fieldsRead_joinUsing h .right hfits fun s hs => hqueries s (by subst hs; exact .head _)
  | insertDefault =>
      cases hstep
      exact ⟨h.values, h.selectStmt, h.whereClauses, h.connected, h.joins, fun hm => nomatch hm⟩
  | insert =>
      cases hstep
      exact ⟨h.values, h.selectStmt, h.whereClauses, h.connected, h.joins, fun hm => nomatch hm⟩
  | insertQuery newBuilder =>
      cases hstep
      rw [Query.insertQuery]
      split
      · exact h
      · refine ⟨h.values, fun s hs => ?_, h.whereClauses, h.connected, h.joins,
          fun hm => nomatch hm⟩
        obtain rfl := Option.some.inj hs
        exact hqueries _ (.head _)
  | insertList colsVals =>
      obtain ⟨_, hq', sub, hsub, _, _, hvalues⟩ :=
        insertList_ok (show q.insertList moves rounds colsVals = .ok q' from hstep)
      rw [hq']
      refine ⟨?_, h.selectStmt, h.whereClauses, h.connected, h.joins, fun hm => nomatch hm⟩
      intro e he
      rw [show ({ q with method := .insert, values := q'.values } : Query F B).values =
        q.values ++ sub.map pairExpr from hvalues] at he
      rcases List.mem_append.1 he with he | he
      · exact h.values e he
      · obtain ⟨p, hp, rfl⟩ := List.mem_map.1 he
        exact pairExpr_reads hfloat (hfits.2.2.2 p (hsub.mem hp))
  | update =>
      cases hstep
      exact ⟨h.values, h.selectStmt, h.whereClauses, h.connected, h.joins, fun hm => nomatch hm⟩
  | remove =>
      cases hstep
      exact ⟨h.values, h.selectStmt, h.whereClauses, h.connected, h.joins, fun hm => nomatch hm⟩

theorem fieldsRead_run {q q' : Query F B} {cs : List (Call F B)}
    (hfloat : ∀ f, quoteChar ∉ cast.float f) (hrun : FittingRun moves q cs q')
    (h : FieldsRead cast q) : FieldsRead cast q' := by
  induction hrun with
  | nil => exact h
  | cons rounds runOf hfits haligned hruns hstep hrest ihruns ihrest =>
      exact ihrest (fieldsRead_apply hfloat h hfits
        (fun s hs => Query.reads (ihruns s hs fieldsRead_empty) (haligned s hs)) hstep)

end Fields

/-! ## Runs that differ in their strings -/

/-- Two queries of one shape. -/
structure SameShape (q r : Query F B) : Prop where
  method : q.method = r.method
  fromCols : eraseTexts q.fromCols = eraseTexts r.fromCols
  selectList : q.method = .select → q.columns = r.columns
  columns : eraseTexts q.columns = eraseTexts r.columns
  values : exprsErase q.values = exprsErase r.values
  selectStmt : selectErase q.selectStmt = selectErase r.selectStmt
  whereClauses : exprsErase q.whereClauses = exprsErase r.whereClauses
  joins : joinsErase q.joins = joinsErase r.joins

theorem SameShape.refl (q : Query F B) : SameShape q q :=
  ⟨rfl, rfl, fun _ => rfl, rfl, rfl, rfl, rfl, rfl⟩

theorem SameShape.erase_eq (h : SameShape q r) : q.erase = r.erase := by
  obtain ⟨method, fromCols, columns, values, selectStmt, whereClauses, joins⟩ := q
  obtain ⟨method', fromCols', columns', values', selectStmt', whereClauses', joins'⟩ := r
  obtain ⟨hmethod, hfrom, hlist, hcolumns, hvalues, hselect, hwheres, hjoins⟩ := h
  dsimp only at hmethod hfrom hlist hcolumns hvalues hselect hwheres hjoins
  subst hmethod
  rw [Query.erase, Query.erase, hfrom, hvalues, hselect, hwheres, hjoins, hcolumns]
  by_cases hm : method = .select
  · rw [hlist hm]
  · rw [if_neg hm, if_neg hm]

theorem method_eq_of_erase (h : q.erase = r.erase) : q.method = r.method := by
  obtain ⟨method, fromCols, columns, values, selectStmt, whereClauses, joins⟩ := q
  obtain ⟨method', fromCols', columns', values', selectStmt', whereClauses', joins'⟩ := r
  rw [Query.erase, Query.erase] at h
  have hm := congrArg Query.method h
  exact hm

/-- Calls that differ in their strings. The select list is the same. -/
inductive SameCall : Call F B → Call F B → Prop where
  | table {ns ns' : List (List Char)} (h : ns.length = ns'.length) :
      SameCall (.table ns) (.table ns')
  | set {k k' : List Char} {v v' : Expr F B} (h : v.erase = v'.erase) :
      SameCall (.set k v) (.set k' v')
  | select (cols : List (List Char)) : SameCall (.select cols) (.select cols)
  | where_ {e₁ e₂ e₁' e₂' : Expr F B} (h₁ : e₁.erase = e₁'.erase) (h₂ : e₂.erase = e₂'.erase) :
      SameCall (.where_ e₁ e₂) (.where_ e₁' e₂')
  | whereIn (member : InMember) {e₁ e₂ e₁' e₂' : Expr F B} {es es' : List (Expr F B)}
      (h₁ : e₁.erase = e₁'.erase) (h₂ : e₂.erase = e₂'.erase)
      (hs : exprsErase es = exprsErase es') :
      SameCall (.whereIn member e₁ e₂ es) (.whereIn member e₁' e₂' es')
  | whereInSelect (member : InSelectMember) {e e' : Expr F B} {s s' : Query F B}
      (h : e.erase = e'.erase) (hs : s.erase = s'.erase) :
      SameCall (.whereInSelect member e s) (.whereInSelect member e' s')
  | leftJoinUsing {t t' : List Char ⊕ Query F B} {ns ns' : List (List Char)}
      (ht : tableErase t = tableErase t') (h : ns.length = ns'.length) :
      SameCall (.leftJoinUsing t ns) (.leftJoinUsing t' ns')
  | rightJoinUsing {t t' : List Char ⊕ Query F B} {ns ns' : List (List Char)}
      (ht : tableErase t = tableErase t') (h : ns.length = ns'.length) :
      SameCall (.rightJoinUsing t ns) (.rightJoinUsing t' ns')
  | insertDefault : SameCall .insertDefault .insertDefault
  | insert : SameCall .insert .insert
  | insertQuery {s s' : Query F B} (h : s.erase = s'.erase) :
      SameCall (.insertQuery s) (.insertQuery s')
  | insertList {l l' : List (List Char × ExprVariant F B)}
      (h : exprsErase (l.map pairExpr) = exprsErase (l'.map pairExpr)) :
      SameCall (.insertList l) (.insertList l')
  | update : SameCall .update .update
  | remove : SameCall .remove .remove

theorem eraseTexts_eq {cs ds : List (List Char)} (h : cs.length = ds.length) :
    eraseTexts cs = eraseTexts ds := by
  rw [eraseTexts, eraseTexts, List.map_const', List.map_const', h]

theorem length_eq_of_eraseTexts {cs ds : List (List Char)} (h : eraseTexts cs = eraseTexts ds) :
    cs.length = ds.length := by
  rw [← length_eraseTexts cs, h, length_eraseTexts]

theorem exprsErase_append {es fs es' fs' : List (Expr F B)} (h : exprsErase es = exprsErase es')
    (h' : exprsErase fs = exprsErase fs') : exprsErase (es ++ fs) = exprsErase (es' ++ fs') := by
  rw [exprsErase_eq, exprsErase_eq] at h h' ⊢
  rw [List.map_append, List.map_append, h, h']

theorem sameShape_whereClauses (h : SameShape q r) {es es' : List (Expr F B)}
    (hes : exprsErase es = exprsErase es') :
    SameShape { q with whereClauses := es } { r with whereClauses := es' } :=
  ⟨h.method, h.fromCols, h.selectList, h.columns, h.values, h.selectStmt, hes, h.joins⟩

theorem sameShape_whereInExprs (h : SameShape q r) (conn : Option Connective)
    (op : InOp) {e e' : Expr F B} {es es' : List (Expr F B)} (he : e.erase = e'.erase)
    (hes : exprsErase es = exprsErase es') :
    SameShape (q.whereInExprs conn op e es) (r.whereInExprs conn op e' es') := by
  cases conn with
  | none => exact sameShape_whereClauses h (by simp [exprsErase, Expr.erase, he, hes])
  | some c =>
      refine sameShape_whereClauses h (exprsErase_append h.whereClauses ?_)
      simp [exprsErase, Expr.erase, he, hes]

theorem sameShape_whereInQuery (h : SameShape q r) (conn : Option Connective)
    (op : InOp) {e e' : Expr F B} {s s' : Query F B} (he : e.erase = e'.erase)
    (hs : s.erase = s'.erase) :
    SameShape (q.whereInQuery conn op e s) (r.whereInQuery conn op e' s') := by
  have hempty : q.whereClauses.isEmpty = r.whereClauses.isEmpty := by
    rw [← isEmpty_exprsErase, h.whereClauses, isEmpty_exprsErase]
  cases conn with
  | none =>
      rw [Query.whereInQuery, Query.whereInQuery, method_eq_of_erase hs]
      split
      · exact h
      · exact sameShape_whereClauses h (by simp [exprsErase, Expr.erase, selectErase, he, hs])
  | some c =>
      rw [Query.whereInQuery, Query.whereInQuery, method_eq_of_erase hs, hempty]
      split
      · exact h
      · split
        · exact h
        · refine sameShape_whereClauses h (exprsErase_append h.whereClauses ?_)
          simp [exprsErase, Expr.erase, selectErase, he, hs]

theorem sameShape_joinUsing (h : SameShape q r) (cat : JoinCat)
    {t t' : List Char ⊕ Query F B} {ns ns' : List (List Char)}
    (ht : tableErase t = tableErase t') (hns : ns.length = ns'.length) :
    SameShape (q.joinUsing cat t ns) (r.joinUsing cat t' ns') := by
  refine ⟨h.method, h.fromCols, h.selectList, h.columns, h.values, h.selectStmt,
    h.whereClauses, ?_⟩
  have hjoins := h.joins
  rw [joinsErase_eq, joinsErase_eq] at hjoins ⊢
  rw [Query.joinUsing, Query.joinUsing, List.map_append, List.map_append, hjoins]
  simp [Join.erase, ht, eraseTexts_eq hns]

/-- A new method that is not `select`. -/
theorem SameShape.withMethod (h : SameShape q r) {m : QueryMethod}
    (hm : m ≠ .select) : SameShape { q with method := m } { r with method := m } :=
  ⟨rfl, h.fromCols, fun hsel => absurd hsel hm, h.columns, h.values, h.selectStmt,
    h.whereClauses, h.joins⟩

theorem sameShape_apply {rounds rounds' : ℕ} {q q' r r' : Query F B}
    {c d : Call F B} (h : SameShape q r) (hcall : SameCall c d) (hc : c.Fits q) (hd : d.Fits r)
    (hq : c.apply moves rounds q = .ok q') (hr : d.apply moves rounds' r = .ok r') :
    SameShape q' r' := by
  cases hcall with
  | table hlen =>
      cases hq
      cases hr
      exact ⟨h.method, eraseTexts_eq hlen, h.selectList, h.columns, h.values, h.selectStmt,
        h.whereClauses, h.joins⟩
  | set hv =>
      cases hq
      cases hr
      refine ⟨h.method, h.fromCols, fun hm => absurd hm hc.1, ?_, ?_, h.selectStmt,
        h.whereClauses, h.joins⟩
      · have hlen := length_eq_of_eraseTexts h.columns
        exact eraseTexts_eq (by simp [Query.set, hlen])
      · exact exprsErase_append h.values (by simp [exprsErase, hv])
  | select cols =>
      cases hq
      cases hr
      have hcols : q.columns = r.columns := by
        rcases hc.2 with hm | hnone
        · exact h.selectList hm
        · have hlen := length_eq_of_eraseTexts h.columns
          rw [hnone, List.length_nil] at hlen
          rw [hnone, List.eq_nil_of_length_eq_zero hlen.symm]
      have hall : q.columns ++ cols = r.columns ++ cols := by rw [hcols]
      exact ⟨rfl, h.fromCols, fun _ => hall, congrArg eraseTexts hall, h.values, h.selectStmt,
        h.whereClauses, h.joins⟩
  | where_ h₁ h₂ =>
      cases hq
      cases hr
      exact sameShape_whereClauses h (by simp [exprsErase, Expr.erase, h₁, h₂])
  | whereIn member h₁ h₂ hs =>
      cases hq
      cases hr
      rw [InMember.apply_eq, InMember.apply_eq]
      exact sameShape_whereInExprs h _ _ h₁ (by rw [exprsErase, exprsErase, h₂, hs])
  | whereInSelect member he hs =>
      cases hq
      cases hr
      rw [InSelectMember.apply_eq, InSelectMember.apply_eq]
      exact sameShape_whereInQuery h _ _ he hs
  | leftJoinUsing ht hlen =>
      cases hq
      cases hr
      exact sameShape_joinUsing h .left ht hlen
  | rightJoinUsing ht hlen =>
      cases hq
      cases hr
      exact sameShape_joinUsing h .right ht hlen
  | insertDefault =>
      cases hq
      cases hr
      exact h.withMethod (by decide)
  | insert =>
      cases hq
      cases hr
      exact h.withMethod (by decide)
  | insertQuery hs =>
      cases hq
      cases hr
      rw [Query.insertQuery, Query.insertQuery, method_eq_of_erase hs]
      split
      · exact h
      · exact ⟨rfl, h.fromCols, (fun hm => nomatch hm), h.columns, h.values,
          by rw [selectErase_eq, selectErase_eq, Option.map_some, Option.map_some, hs],
          h.whereClauses, h.joins⟩
  | @insertList l l' hl =>
      have hq' := insertList_matching_ok hc.2.1 hc.2.2.1
        (show q.insertList moves rounds l = .ok q' from hq)
      have hr' := insertList_matching_ok hd.2.1 hd.2.2.1
        (show r.insertList moves rounds' l' = .ok r' from hr)
      rw [hq', hr']
      exact ⟨rfl, h.fromCols, (fun hm => nomatch hm), h.columns, exprsErase_append h.values hl,
        h.selectStmt, h.whereClauses, h.joins⟩
  | update =>
      cases hq
      cases hr
      exact h.withMethod (by decide)
  | remove =>
      cases hq
      cases hr
      exact h.withMethod (by decide)

theorem sameShape_run {q q' r r' : Query F B} {cs ds : List (Call F B)}
    (h : SameShape q r) (hcalls : List.Forall₂ SameCall cs ds)
    (hq : FittingRun moves q cs q') (hr : FittingRun moves r ds r') : SameShape q' r' := by
  induction hcalls generalizing q r with
  | nil =>
      cases hq
      cases hr
      exact h
  | cons hcall hcalls ih =>
      cases hq with
      | cons _ _ hc _ _ hstep hrest =>
          cases hr with
          | cons _ _ hd _ _ hstep' hrest' =>
              exact ih (sameShape_apply h hcall hc hd hstep hstep') hrest hrest'

theorem SameShape.aligned (h : SameShape q r) (ha : q.Aligned) : r.Aligned := by
  have hcols : q.columns.length = r.columns.length := length_eq_of_eraseTexts h.columns
  have hvals : q.values.length = r.values.length := by
    rw [← length_exprsErase, h.values, length_exprsErase]
  have hnone : r.selectStmt = none → q.selectStmt = none := by
    intro hr
    have hs := h.selectStmt
    rw [hr, selectErase_eq, selectErase_eq] at hs
    simpa using hs
  constructor
  · intro hm hs
    obtain ⟨h₁, h₂, h₃⟩ := ha.1 (h.method.trans hm) (hnone hs)
    rw [← List.length_pos_iff, hcols] at h₁
    rw [← List.length_pos_iff, hvals] at h₂
    rw [hcols, hvals] at h₃
    exact ⟨List.length_pos_iff.1 h₁, List.length_pos_iff.1 h₂, h₃⟩
  · intro hm hv
    have hfit := ha.2 (h.method.trans hm)
    rw [hvals, hcols] at hfit
    refine hfit ?_
    rw [← List.length_pos_iff, hvals]
    exact List.length_pos_iff.2 hv

/-! ## The literals of the text -/

/-- What a reader of the text of a query finds. -/
def Query.tokens (cast : Casts F B) (q : Query F B) : Option (List (Token Char)) :=
  (q.toString cast).bind (lex quoteChar)

/-- A call without queries among its arguments, in a run. -/
theorem FittingRun.call {q q₁ q' : Query F B} {c : Call F B}
    {cs : List (Call F B)} (hfits : c.Fits q) (hqueries : c.queries = [])
    (hstep : c.apply moves 0 q = .ok q₁) (hrest : FittingRun moves q₁ cs q') :
    FittingRun moves q (c :: cs) q' := by
  refine .cons 0 (fun _ => []) hfits ?_ ?_ hstep hrest
  · rw [hqueries]
    simp
  · rw [hqueries]
    simp

/-- The calls of a delete query with one comparison. -/
def removeCalls (table column value : List Char) : List (Call Unit Unit) :=
  [.table [table], .where_ (.string column) (.string value), .remove]

def removeQuery (table column value : List Char) : Query Unit Unit :=
  ((Query.empty.table [table]).where_ (.string column) (.string value)).remove

theorem removeCalls_run (moves : Moves) (table column value : List Char) :
    FittingRun moves .empty (removeCalls table column value) (removeQuery table column value) :=
  .call trivial rfl rfl (.call ⟨trivial, trivial⟩ rfl rfl (.call trivial rfl rfl (.nil _)))

end Webpp.Db
