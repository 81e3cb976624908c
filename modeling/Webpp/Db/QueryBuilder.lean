import Webpp.Db.QueryExpr
import Webpp.Foundation.Loop

/-!
# The calls of the query builder

The member functions of `query_builder` and of its `table` and `column_builder`
helpers, each as a function of the builder's state. Only `insert` with a list of
pairs can fault: it walks over `columns` and `values` with iterators while it appends
to both. Where an append or an insertion moves a vector is a parameter.
-/

namespace Webpp.Db

open Loop

variable {F B : Type}

/-- The connective of an `and_`/`or_` member function. -/
inductive Connective where
  | and_ | or_
  deriving DecidableEq

def Connective.op : Connective → UnaryOp
  | .and_ => .andOp
  | .or_ => .orOp

/-- A value of `expr_variant`. -/
inductive ExprVariant (F B : Type) where
  | monostate
  | float (val : F)
  | integer (val : Int)
  | string (val : List Char)
  | blob (val : B)

/-- `expressionify` of an `expr_variant` -/
def ExprVariant.expressionify : ExprVariant F B → Expr F B
  | .monostate => .null
  | .float val => .floating val
  | .integer val => .integer val
  | .string val => .string val
  | .blob val => .blob val

namespace Query

/-- `table.name(…)` -/
def table (q : Query F B) (names : List (List Char)) : Query F B :=
  { q with fromCols := names }

/-- `builder["col"] = value` -/
def set (q : Query F B) (key : List Char) (value : Expr F B) : Query F B :=
  { q with columns := q.columns ++ [key], values := q.values ++ [value] }

/-- `select(…)` -/
def select (q : Query F B) (cols : List (List Char)) : Query F B :=
  { q with method := .select, columns := q.columns ++ cols }

/-- `where(expr1, expr2)` -/
def where_ (q : Query F B) (expr1 expr2 : Expr F B) : Query F B :=
  { q with whereClauses := [.binary .eq expr1 expr2] }

/-! ### The `where_in` family

The members differ in whether they start over or append behind a connective, and in the
operation. Those with expressions append without a look at the clauses; those with a
query want a select query and, to append, a clause before. -/

/-- `where_in` and the like with expressions. -/
def whereInExprs (conn : Option Connective) (op : InOp) (q : Query F B) (expr1 : Expr F B)
    (exprs : List (Expr F B)) : Query F B :=
  match conn with
  | none => { q with whereClauses := [.inExpr op expr1 exprs none] }
  | some c =>
      { q with whereClauses := q.whereClauses ++ [.unary c.op (.inExpr op expr1 exprs none)] }

/-- `where_in` and the like with a query. -/
def whereInQuery (conn : Option Connective) (op : InOp) (q : Query F B) (expr1 : Expr F B)
    (selectQuery : Query F B) : Query F B :=
  if selectQuery.method ≠ .select then q
  else
    match conn with
    | none => { q with whereClauses := [.inExpr op expr1 [] (some selectQuery)] }
    | some c =>
        if q.whereClauses.isEmpty then q
        else
          { q with
            whereClauses :=
              q.whereClauses ++ [.unary c.op (.inExpr op expr1 [] (some selectQuery))] }

/-- `where_in(expr1, exprs…)` -/
def whereIn (q : Query F B) := q.whereInExprs none .in_

/-- `where_not_in(expr1, exprs…)` -/
def whereNotIn (q : Query F B) := q.whereInExprs none .notIn

/-- `and_where_in(expr1, exprs…)` -/
def andWhereIn (q : Query F B) := q.whereInExprs (some .and_) .in_

/-- `or_where_in(expr1, exprs…)` -/
def orWhereIn (q : Query F B) := q.whereInExprs (some .or_) .in_

/-- `or_where_not_in(expr1, exprs…)` -/
def orWhereNotIn (q : Query F B) := q.whereInExprs (some .or_) .notIn

/-- `and_where_not_in(expr1, exprs…)` -/
def andWhereNotIn (q : Query F B) := q.whereInExprs (some .and_) .notIn

/-- `where_in(expr1, select_query)` -/
def whereInSelect (q : Query F B) := q.whereInQuery none .in_

/-- `where_not_in(expr1, select_query)` -/
def whereNotInSelect (q : Query F B) := q.whereInQuery none .notIn

/-- `and_where_not_in(expr1, select_query)` -/
def andWhereNotInSelect (q : Query F B) := q.whereInQuery (some .and_) .notIn

/-- `or_where_in(expr1, select_query)` -/
def orWhereInSelect (q : Query F B) := q.whereInQuery (some .or_) .in_

/-- `or_where_not_in(expr1, select_query)` -/
def orWhereNotInSelect (q : Query F B) := q.whereInQuery (some .or_) .notIn

/-! ### Joins -/

/-- A join with a condition on columns; its expression is the null expression. -/
def joinUsing (cat : JoinCat) (q : Query F B) (table : List Char ⊕ Query F B)
    (colNames : List (List Char)) : Query F B :=
  { q with joins := q.joins ++ [⟨cat, .usingCond, table, .null, colNames⟩] }

def leftJoinUsing (q : Query F B) := q.joinUsing .left

def rightJoinUsing (q : Query F B) := q.joinUsing .right

/-! ### The query method -/

/-- `insert_default()` -/
def insertDefault (q : Query F B) : Query F B := { q with method := .insertDefault }

/-- `insert()` -/
def insert (q : Query F B) : Query F B := { q with method := .insert }

/-- `insert(new_builder)` -/
def insertQuery (q newBuilder : Query F B) : Query F B :=
  if newBuilder.method ≠ .select then q
  else { q with method := .insert, selectStmt := some newBuilder }

/-- `update()` -/
def update (q : Query F B) : Query F B := { q with method := .update }

/-- `remove()` -/
def remove (q : Query F B) : Query F B := { q with method := .remove }

end Query

/-! ## Inserting a list of pairs -/

/-- What goes wrong in `insert`. -/
inductive InsertFault where
  /-- An iterator is read or moved outside its vector. -/
  | outside
  /-- An iterator is used after its vector has moved. -/
  | invalidated
  /-- The rounds are used up. -/
  | exhausted
  deriving DecidableEq

/-- Which appends and insertions invalidate the iterators, by the size before. -/
structure Moves where
  columnsPush : ℕ → Bool
  valuesPush : ℕ → Bool
  valuesInsert : ℕ → Bool

/-- The inner loop's variables: `val_it`, the values, and whether `val_it` and
`values_last` are still valid. -/
structure Widening (F B : Type) where
  valIt : ℕ
  values : List (Expr F B)
  valid : Bool

/-- One round of the loop that widens the earlier rows. -/
def widenRound (moves : Moves) (colSize valuesLast : ℕ) (w : Widening F B) :
    Except InsertFault (Flow (Widening F B) (List (Expr F B))) :=
  if !w.valid then .error .invalidated
  else if w.values.length < w.valIt then .error .outside
  else if w.valIt = valuesLast then .ok (.done w.values)
  else
    -- `val_it` is used again behind the insertion
    .ok (.next ⟨w.valIt + colSize, w.values.insertIdx w.valIt .null,
      !moves.valuesInsert w.values.length⟩)

/-- The variables of the loop of `insert`: `col_it` and `pos` as indices, the two vectors,
and whether `col_it` and `values_last` are still valid. -/
structure Merge (F B : Type) where
  colIt : ℕ
  pos : ℕ
  columns : List (List Char)
  values : List (Expr F B)
  colItValid : Bool
  valuesLastValid : Bool

/-- One round of the loop of `insert`. `stl::swap(pos, next_it)` moves `pos` to the next
pair and leaves the pairs as they are. -/
def mergeRound (moves : Moves) (rounds : ℕ) (valuesLast : ℕ)
    (colsVals : List (List Char × ExprVariant F B)) (m : Merge F B) :
    Except InsertFault (Flow (Merge F B) (Merge F B)) :=
  match colsVals[m.pos]? with
  | none => .error .outside
  | some (col, val) =>
      if !m.colItValid then .error .invalidated
      else
        match m.columns[m.colIt]? with
        | none => .error .outside
        | some column =>
            if col ≠ column then
              if m.pos + 1 ≠ colsVals.length then .ok (.next { m with pos := m.pos + 1 })
              else do
                let values ←
                  loop (widenRound moves m.columns.length valuesLast) .exhausted rounds
                    ⟨m.columns.length, m.values, m.valuesLastValid⟩
                return .next { m with
                  columns := m.columns ++ [col]
                  values := values
                  colItValid := !moves.columnsPush m.columns.length }
            else
              let m' : Merge F B := { m with
                values := m.values ++ [val.expressionify]
                valuesLastValid := m.valuesLastValid && !moves.valuesPush m.values.length
                colIt := m.colIt + 1
                pos := m.pos + 1 }
              if m'.pos = colsVals.length then .ok (.done m') else .ok (.next m')

/-- `insert(input_cols_vals)`, in at most `rounds` rounds of each loop. `values_last` is
taken from the values' end before anything else. -/
def Query.insertList (moves : Moves) (rounds : ℕ) (q : Query F B)
    (colsVals : List (List Char × ExprVariant F B)) : Except InsertFault (Query F B) :=
  if q.values.isEmpty then .error .outside
  else do
    let m ← loop (mergeRound moves rounds (q.values.length - 1) colsVals) .exhausted rounds
      ⟨0, 0, q.columns, q.values, true, true⟩
    return { q with method := .insert, columns := m.columns, values := m.values }

end Webpp.Db
