import Webpp.Foundation.QuotedText

/-!
# Expressions and queries

The expression objects of the query builder, the builder's own state, and their
serializers. A serializer gives the pieces of the text: the words it writes itself
and the strings that go through `quoted_escape`. It gives nothing where the source
reads past the end of a vector. How `lexical::cast` writes a floating point number
or a blob is a parameter.
-/

namespace Webpp.Db

open QuotedText

/-- The character around SQL strings. -/
def quoteChar : Char := '\''

abbrev SqlPiece := Piece Char

/-- A word that the serializer writes. -/
def word (s : String) : SqlPiece := .raw s.toList

/-- How the values without a fixed text are written. -/
structure Casts (F B : Type) where
  float : F → List Char
  blob : B → List Char

/-- The operations of `unary_op_expr`. -/
inductive UnaryOp where
  | plus | minus | incr | decr | negate | andOp | orOp | andNot | orNot
  deriving DecidableEq

/-- The operations of `expr_op_expr`. -/
inductive BinaryOp where
  | add | sub | mul | div | modulo | eq | neq | gt | lt | ge | le
  deriving DecidableEq

/-- The operations of `expr_is_null`. -/
inductive NullOp where
  | isNull | notNull
  deriving DecidableEq

/-- The operations of `expr_is_expr`. -/
inductive IsOp where
  | is | isNot | isDistinct | isNotDistinct
  deriving DecidableEq

/-- The operations of `expr_in_expr`. -/
inductive InOp where
  | in_ | notIn
  deriving DecidableEq

inductive QueryMethod where
  | select | insert | insertDefault | update | remove | none
  deriving DecidableEq

inductive JoinCat where
  | inner | left | right | full | cross
  deriving DecidableEq

inductive CondType where
  | usingCond | onCond | none
  deriving DecidableEq

mutual

/-- The expression objects. -/
inductive Expr (F B : Type) where
  | floating (val : F)
  | integer (val : Int)
  | string (val : List Char)
  | blob (val : B)
  | bool (val : Bool)
  | null
  | colName (schemaName tableName columnName : List Char)
  | unary (op : UnaryOp) (expr : Expr F B)
  | binary (op : BinaryOp) (left right : Expr F B)
  | list (exprs : List (Expr F B))
  | isNull (op : NullOp) (expr : Expr F B)
  | isExpr (op : IsOp) (left right : Expr F B)
  | inExpr (op : InOp) (left : Expr F B) (exprs : List (Expr F B))
      (selectStmt : Option (Query F B))

/-- The state of a query builder. -/
structure Query (F B : Type) where
  method : QueryMethod
  fromCols : List (List Char)
  columns : List (List Char)
  values : List (Expr F B)
  selectStmt : Option (Query F B)
  whereClauses : List (Expr F B)
  joins : List (Join F B)

structure Join (F B : Type) where
  cat : JoinCat
  cond : CondType
  table : List Char ⊕ Query F B
  expr : Expr F B
  colNames : List (List Char)

end

variable {F B : Type}

/-- A new query builder. -/
def Query.empty : Query F B where
  method := .none
  fromCols := []
  columns := []
  values := []
  selectStmt := none
  whereClauses := []
  joins := []

/-! ## The words of the operations -/

def UnaryOp.text : UnaryOp → String
  | .plus => " + "
  | .minus => " - "
  | .incr => " ++"
  | .decr => " --"
  | .negate => " !"
  | .andOp => " and "
  | .orOp => " or "
  | .andNot => " and not "
  | .orNot => " or not "

def BinaryOp.text : BinaryOp → String
  | .add => " + "
  | .sub => " - "
  | .mul => " * "
  | .div => " / "
  | .modulo => " % "
  | .eq => " = "
  | .neq => " != "
  | .gt => " > "
  | .lt => " < "
  | .ge => " >= "
  | .le => " <= "

def NullOp.text : NullOp → String
  | .isNull => " is null"
  | .notNull => " not null"

def IsOp.text : IsOp → String
  | .is => " is "
  | .isNot => " is not "
  | .isDistinct => " is distinct from "
  | .isNotDistinct => " is not distinct from "

def InOp.text : InOp → String
  | .in_ => " in ("
  | .notIn => " not in ("

def JoinCat.text : JoinCat → String
  | .inner => " inner join "
  | .left => " left join "
  | .right => " right join "
  | .full => " full join "
  | .cross => " cross join "

/-! ## The serializers -/

/-- Pieces with `", "` between them. The vector must not be empty: the first element is
written before the end is looked for. -/
def commaList : List (List SqlPiece) → Option (List SqlPiece)
  | [] => none
  | [e] => some e
  | e :: es => (commaList es).map (e ++ word ", " :: ·)

def serializeFrom : List (List Char) → List SqlPiece
  | [] => []
  | [t] => [.quoted t]
  | t :: ts => .quoted t :: word ", " :: serializeFrom ts

def serializeSingleFrom : List (List Char) → List SqlPiece
  | [] => []
  | t :: _ => [.quoted t]

/-- `strings::join_with(out, columns, ", ")`, which quotes nothing. -/
def joinColumns : List (List Char) → List SqlPiece
  | [] => []
  | [c] => [.raw c]
  | c :: cs => .raw c :: word ", " :: joinColumns cs

def serializeSelectColumns (columns : List (List Char)) : List SqlPiece :=
  if columns = [] then [word "*"] else joinColumns columns

/-- The column names of `serialize_insert`. -/
def insertColumns (columns : List (List Char)) : Option (List SqlPiece) :=
  if columns = [] then some []
  else (commaList (columns.map fun c => [.quoted c])).map fun ps => word "(" :: ps ++ [word ")"]

/-- The values of `serialize_insert` behind the opening parenthesis of a tuple, with `k`
more values in the tuple behind the next one. -/
def insertTuples (colSize : ℕ) : ℕ → List (List SqlPiece) → Option (List SqlPiece)
  | _, [] => none
  | 0, [e] => some (e ++ [word ")"])
  | 0, e :: es => (insertTuples colSize (colSize - 1) es).map (e ++ word ")" :: word ", (" :: ·)
  | k + 1, e :: es => (insertTuples colSize k es).map (e ++ word ", " :: ·)

/-- `values (…), (…)`. With no columns, `pos + col_size - 1` lies before the vector. -/
def insertValues (colSize : ℕ) (values : List (List SqlPiece)) : Option (List SqlPiece) :=
  if colSize = 0 then none
  else (insertTuples colSize (colSize - 1) values).map (word "values" :: word " (" :: ·)

/-- The assignments of `serialize_update`. The loop ends with the values, the columns are
read without a check. -/
def updateAssignments : List (List Char) → List (List SqlPiece) → Option (List SqlPiece)
  | c :: _, [e] => some (.quoted c :: word " = " :: e)
  | c :: cs, e :: es =>
      (updateAssignments cs es).map (.quoted c :: word " = " :: e ++ word ", " :: ·)
  | _, _ => none

/-- `serialize_insert` with what stands behind the column names: the select statement or
the values. -/
def serializeInsert (fromCols columns : List (List Char)) (body : List SqlPiece) :
    Option (List SqlPiece) :=
  (insertColumns columns).map fun cols =>
    word "insert into " :: serializeSingleFrom fromCols ++ word " " :: cols ++ body

/-- `serialize_where` on the pieces of the clauses. -/
def serializeWhere (clauses : List (List SqlPiece)) : List SqlPiece :=
  if clauses = [] then [] else word " where " :: clauses.flatten

mutual

/-- What an expression object writes. -/
def Expr.pieces (cast : Casts F B) : Expr F B → Option (List SqlPiece)
  | .floating val => some [.raw (cast.float val)]
  | .integer val => some [word (toString val)]
  | .string val => some [.quoted val]
  | .blob val => some [.raw (cast.blob val)]
  | .bool val => some [word (if val then "true" else "false")]
  | .null => some [word "null"]
  | .colName schemaName tableName columnName =>
      some [.quoted schemaName, .quoted tableName, .quoted columnName]
  | .unary op expr => (expr.pieces cast).map (word op.text :: ·)
  | .binary op left right => do
      let l ← left.pieces cast
      let r ← right.pieces cast
      return l ++ word op.text :: r
  | .list exprs => do
      let es ← exprsPieces cast exprs
      let ps ← commaList es
      return word "(" :: ps ++ [word ")"]
  | .isNull op expr => (expr.pieces cast).map (· ++ [word op.text])
  | .isExpr op left right => do
      let l ← left.pieces cast
      let r ← right.pieces cast
      return l ++ word op.text :: r
  | .inExpr op left exprs selectStmt => do
      let l ← left.pieces cast
      let body ← (
        match exprs with
        | e :: es => do
            let p ← e.pieces cast
            let ps ← exprsPieces cast es
            commaList (p :: ps)
        | [] =>
            match selectStmt with
            | some q => q.pieces cast
            | none => none)
      return l ++ word op.text :: body ++ [word ")"]

def exprsPieces (cast : Casts F B) : List (Expr F B) → Option (List (List SqlPiece))
  | [] => some []
  | e :: es => do
      let p ← e.pieces cast
      let ps ← exprsPieces cast es
      return p :: ps

/-- `query_builder::to_string` -/
def Query.pieces (cast : Casts F B) : Query F B → Option (List SqlPiece)
  | ⟨method, fromCols, columns, values, selectStmt, whereClauses, joins⟩ =>
      match method with
      | .insert => do
          let body ← (
            match selectStmt with
            | some q => q.pieces cast
            | none => do
                let vs ← exprsPieces cast values
                insertValues columns.length vs)
          serializeInsert fromCols columns body
      | .select => do
          let js ← joinsPieces cast joins
          let ws ← exprsPieces cast whereClauses
          return word "select " :: serializeSelectColumns columns ++
            word " from " :: serializeFrom fromCols ++ js ++ serializeWhere ws
      | .insertDefault =>
          some (word "insert into " :: serializeFrom fromCols ++ [word " default values"])
      | .update =>
          if values.isEmpty then some []
          -- the assertion of the source
          else if values.length ≠ columns.length then none
          else do
            let vs ← exprsPieces cast values
            let ws ← exprsPieces cast whereClauses
            let ps ← updateAssignments columns vs
            return word "update " :: serializeSingleFrom fromCols ++ word " set " :: ps ++
              serializeWhere ws
      | .remove =>
          match fromCols with
          | [] => some []
          | t :: _ => do
              let ws ← exprsPieces cast whereClauses
              return word "delete from " :: .quoted t :: serializeWhere ws
      | .none => some []

/-- `serialize_joins` -/
def joinsPieces (cast : Casts F B) : List (Join F B) → Option (List SqlPiece)
  | [] => some []
  | j :: js => do
      let p ← j.pieces cast
      let ps ← joinsPieces cast js
      return p ++ ps

/-- One round of `serialize_joins`. -/
def Join.pieces (cast : Casts F B) : Join F B → Option (List SqlPiece)
  | ⟨cat, cond, table, expr, colNames⟩ => do
      let t ← (
        match table with
        | .inl tableName => some [.quoted tableName]
        | .inr query => query.pieces cast)
      let c ← (
        match cond with
        | .none => some []
        | .onCond => (expr.pieces cast).map (word "on " :: ·)
        | .usingCond =>
            (commaList (colNames.map fun c => [.quoted c])).map fun ps =>
              word "using (" :: ps ++ [word ")"])
      return word cat.text :: t ++ word " " :: c

end

/-- The text of `to_string`. -/
def Query.toString (cast : Casts F B) (q : Query F B) : Option (List Char) :=
  (q.pieces cast).map (render quoteChar)

end Webpp.Db
