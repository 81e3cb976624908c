import Webpp.Db.QueryReading

/-!
# The shape of a query

A query without its strings. Leaving out the strings before or after printing is the
same: no serializer looks at a string or writes one without quotes, the select list
apart.
-/

namespace Webpp.Db

open QuotedText

variable {F B : Type}

/-- As many empty strings. -/
def eraseTexts (cs : List (List Char)) : List (List Char) := cs.map fun _ => []

mutual

/-- An expression object without its strings. -/
def Expr.erase : Expr F B → Expr F B
  | .string _ => .string []
  | .colName _ _ _ => .colName [] [] []
  | .unary op expr => .unary op expr.erase
  | .binary op left right => .binary op left.erase right.erase
  | .list exprs => .list (exprsErase exprs)
  | .isNull op expr => .isNull op expr.erase
  | .isExpr op left right => .isExpr op left.erase right.erase
  | .inExpr op left exprs selectStmt =>
      .inExpr op left.erase (exprsErase exprs) (selectErase selectStmt)
  | .floating val => .floating val
  | .integer val => .integer val
  | .blob val => .blob val
  | .bool val => .bool val
  | .null => .null

def exprsErase : List (Expr F B) → List (Expr F B)
  | [] => []
  | e :: es => e.erase :: exprsErase es

/-- A query without its strings. The select list of a select query stays. -/
def Query.erase : Query F B → Query F B
  | ⟨method, fromCols, columns, values, selectStmt, whereClauses, joins⟩ =>
      ⟨method, eraseTexts fromCols, if method = .select then columns else eraseTexts columns,
        exprsErase values, selectErase selectStmt, exprsErase whereClauses, joinsErase joins⟩

def selectErase : Option (Query F B) → Option (Query F B)
  | some q => some q.erase
  | none => none

def joinsErase : List (Join F B) → List (Join F B)
  | [] => []
  | j :: js => j.erase :: joinsErase js

/-- A join without its strings. -/
def Join.erase : Join F B → Join F B
  | ⟨cat, cond, table, expr, colNames⟩ =>
      ⟨cat, cond, tableErase table, expr.erase, eraseTexts colNames⟩

def tableErase : List Char ⊕ Query F B → List Char ⊕ Query F B
  | .inl _ => .inl []
  | .inr q => .inr q.erase

end

/-- Pieces without their strings. -/
abbrev erasePieces (ps : List SqlPiece) : List SqlPiece := ps.map Piece.erase

theorem commaList_erase (pss : List (List SqlPiece)) :
    commaList (pss.map erasePieces) = (commaList pss).map erasePieces := by
  induction pss with
  | nil => rfl
  | cons ps pss ih =>
      cases pss with
      | nil => rfl
      | cons ps' pss =>
          have hstep : ∀ (e e' : List SqlPiece) es, commaList (e :: e' :: es) =
              (commaList (e' :: es)).map (e ++ word ", " :: ·) := fun _ _ _ => rfl
          rw [List.map_cons] at ih
          rw [List.map_cons, List.map_cons, hstep, ih, hstep, Option.map_map, Option.map_map]
          congr 1
          funext qs
          simp [erasePieces, word, Piece.erase]

theorem quoted_erase (cs : List (List Char)) :
    (eraseTexts cs).map (fun c => [Piece.quoted c]) =
      (cs.map fun c => [Piece.quoted c]).map erasePieces := by
  simp [eraseTexts, Function.comp_def, Piece.erase]

theorem serializeFrom_erase (ts : List (List Char)) :
    serializeFrom (eraseTexts ts) = erasePieces (serializeFrom ts) := by
  induction ts with
  | nil => rfl
  | cons t ts ih =>
      cases ts with
      | nil => rfl
      | cons t' ts =>
          have hstep : serializeFrom (eraseTexts (t :: t' :: ts)) =
              .quoted [] :: word ", " :: serializeFrom (eraseTexts (t' :: ts)) := rfl
          rw [hstep, ih]
          rfl

theorem serializeSingleFrom_erase (ts : List (List Char)) :
    serializeSingleFrom (eraseTexts ts) = erasePieces (serializeSingleFrom ts) := by
  cases ts <;> rfl

theorem serializeSelectColumns_erase (cs : List (List Char)) :
    erasePieces (serializeSelectColumns cs) = serializeSelectColumns cs := by
  rw [serializeSelectColumns]
  split
  · rfl
  · induction cs with
    | nil => rfl
    | cons c cs ih =>
        cases cs with
        | nil => rfl
        | cons c' cs =>
            have hstep : joinColumns (c :: c' :: cs) =
                .raw c :: word ", " :: joinColumns (c' :: cs) := rfl
            rw [hstep, erasePieces, List.map_cons, List.map_cons, ← erasePieces, ih (by simp)]
            rfl

theorem insertColumns_erase (cs : List (List Char)) :
    insertColumns (eraseTexts cs) = (insertColumns cs).map erasePieces := by
  cases cs with
  | nil => rfl
  | cons c cs =>
      rw [insertColumns, insertColumns, if_neg (by simp [eraseTexts]), if_neg (by simp),
        quoted_erase, commaList_erase, Option.map_map, Option.map_map]
      congr 1
      funext ps
      simp [erasePieces, word, Piece.erase]

theorem insertTuples_erase (w : ℕ) : ∀ (k : ℕ) (pss : List (List SqlPiece)),
    insertTuples w k (pss.map erasePieces) = (insertTuples w k pss).map erasePieces
  | _, [] => by simp [insertTuples]
  | 0, [ps] => by simp [insertTuples, erasePieces, word, Piece.erase]
  | 0, ps :: ps' :: pss => by
      have hrest := insertTuples_erase w (w - 1) (ps' :: pss)
      rw [List.map_cons] at hrest
      rw [List.map_cons, List.map_cons, insertTuples, insertTuples, hrest, Option.map_map,
        Option.map_map]
      · congr 1
        funext qs
        simp [erasePieces, word, Piece.erase]
      · simp
      · simp
  | k + 1, ps :: pss => by
      rw [List.map_cons, insertTuples, insertTuples, insertTuples_erase w k pss, Option.map_map,
        Option.map_map]
      congr 1
      funext qs
      simp [erasePieces, word, Piece.erase]

theorem insertValues_erase (w : ℕ) (pss : List (List SqlPiece)) :
    insertValues w (pss.map erasePieces) = (insertValues w pss).map erasePieces := by
  rw [insertValues, insertValues]
  split
  · rfl
  · rw [insertTuples_erase, Option.map_map, Option.map_map]
    rfl

theorem updateAssignments_erase (cs : List (List Char)) (pss : List (List SqlPiece)) :
    updateAssignments (eraseTexts cs) (pss.map erasePieces) =
      (updateAssignments cs pss).map erasePieces := by
  induction cs generalizing pss with
  | nil => cases pss <;> rfl
  | cons c cs ih =>
      cases pss with
      | nil => rfl
      | cons ps pss =>
          cases pss with
          | nil => rfl
          | cons ps' pss =>
              have hstep : ∀ (c : List Char) cs (ps ps' : List SqlPiece) pss,
                  updateAssignments (c :: cs) (ps :: ps' :: pss) =
                    (updateAssignments cs (ps' :: pss)).map
                      (.quoted c :: word " = " :: ps ++ word ", " :: ·) := fun _ _ _ _ _ => rfl
              have hrest := ih (ps' :: pss)
              rw [List.map_cons] at hrest
              rw [eraseTexts, List.map_cons, ← eraseTexts, List.map_cons, List.map_cons, hstep, hrest,
                hstep, Option.map_map, Option.map_map]
              congr 1
              funext qs
              simp [erasePieces, word, Piece.erase]

theorem serializeInsert_erase (ts cs : List (List Char)) (body : List SqlPiece) :
    serializeInsert (eraseTexts ts) (eraseTexts cs) (erasePieces body) =
      (serializeInsert ts cs body).map erasePieces := by
  rw [serializeInsert, serializeInsert, insertColumns_erase, serializeSingleFrom_erase,
    Option.map_map, Option.map_map]
  congr 1
  funext ps
  simp [erasePieces, word, Piece.erase]

theorem serializeWhere_erase (pss : List (List SqlPiece)) :
    serializeWhere (pss.map erasePieces) = erasePieces (serializeWhere pss) := by
  cases pss with
  | nil => rfl
  | cons ps pss =>
      rw [serializeWhere, serializeWhere, if_neg (by simp), if_neg (by simp)]
      simp [erasePieces, word, Piece.erase, List.map_flatten]

theorem length_eraseTexts (cs : List (List Char)) : (eraseTexts cs).length = cs.length :=
  List.length_map _

theorem exprsErase_eq (es : List (Expr F B)) : exprsErase es = es.map Expr.erase := by
  induction es with
  | nil => rfl
  | cons e es ih => rw [exprsErase, ih, List.map_cons]

theorem length_exprsErase (es : List (Expr F B)) : (exprsErase es).length = es.length := by
  rw [exprsErase_eq, List.length_map]

theorem isEmpty_exprsErase (es : List (Expr F B)) : (exprsErase es).isEmpty = es.isEmpty := by
  cases es <;> rfl

theorem joinsErase_eq (js : List (Join F B)) : joinsErase js = js.map Join.erase := by
  induction js with
  | nil => rfl
  | cons j js ih => rw [joinsErase, ih, List.map_cons]

theorem selectErase_eq (s : Option (Query F B)) : selectErase s = s.map Query.erase := by
  cases s <;> rfl

/-! ## Printing without strings -/

section Printing

variable {cast : Casts F B}

/-- Two results in turn, each without its strings. -/
theorem bind_erase {α β : Type} {x x' : Option α} {f f' : α → Option β} {g : α → α} {h : β → β}
    (hx : x' = x.map g) (hf : ∀ a, f' (g a) = (f a).map h) :
    x'.bind f' = (x.bind f).map h := by
  subst hx
  cases x with
  | none => rfl
  | some a => exact hf a

mutual

theorem Expr.pieces_erase : ∀ e : Expr F B, e.erase.pieces cast = (e.pieces cast).map erasePieces
  | .floating _ => rfl
  | .integer _ => rfl
  | .string _ => rfl
  | .blob _ => rfl
  | .bool _ => rfl
  | .null => rfl
  | .colName _ _ _ => rfl
  | .unary op expr => by
      rw [Expr.erase, Expr.pieces, Expr.pieces, Expr.pieces_erase expr, Option.map_map,
        Option.map_map]
      rfl
  | .binary op left right => by
      rw [Expr.erase, Expr.pieces, Expr.pieces]
      refine bind_erase (Expr.pieces_erase left) fun l => ?_
      refine bind_erase (Expr.pieces_erase right) fun r => ?_
      simp [erasePieces, word, Piece.erase]
  | .list exprs => by
      rw [Expr.erase, Expr.pieces, Expr.pieces]
      refine bind_erase (exprsPieces_erase exprs) fun es => ?_
      refine bind_erase (commaList_erase es) fun ps => ?_
      simp [erasePieces, word, Piece.erase]
  | .isNull op expr => by
      rw [Expr.erase, Expr.pieces, Expr.pieces, Expr.pieces_erase expr, Option.map_map,
        Option.map_map]
      congr 1
      funext ps
      simp [erasePieces, word, Piece.erase]
  | .isExpr op left right => by
      rw [Expr.erase, Expr.pieces, Expr.pieces]
      refine bind_erase (Expr.pieces_erase left) fun l => ?_
      refine bind_erase (Expr.pieces_erase right) fun r => ?_
      simp [erasePieces, word, Piece.erase]
  | .inExpr op left exprs selectStmt => by
      have hbody : inBody cast (exprsErase exprs) (selectErase selectStmt) =
          (inBody cast exprs selectStmt).map erasePieces := by
        cases exprs with
        | cons e es => exact bind_erase (exprsPieces_erase (e :: es)) commaList_erase
        | nil =>
            cases selectStmt with
            | none => rfl
            | some q => exact Query.pieces_erase q
      rw [Expr.erase, Expr.pieces_inExpr, Expr.pieces_inExpr]
      refine bind_erase (Expr.pieces_erase left) fun l => ?_
      refine bind_erase hbody fun body => ?_
      simp [erasePieces, word, Piece.erase]

theorem exprsPieces_erase : ∀ es : List (Expr F B),
    exprsPieces cast (exprsErase es) = (exprsPieces cast es).map (List.map erasePieces)
  | [] => rfl
  | e :: es => by
      rw [exprsErase, exprsPieces, exprsPieces]
      refine bind_erase (Expr.pieces_erase e) fun p => ?_
      exact bind_erase (exprsPieces_erase es) fun ps => rfl

theorem Query.pieces_erase : ∀ q : Query F B,
    q.erase.pieces cast = (q.pieces cast).map erasePieces
  | ⟨.insert, fromCols, columns, values, selectStmt, whereClauses, joins⟩ => by
      rw [Query.erase, Query.pieces_insert rfl, Query.pieces_insert rfl]
      refine bind_erase ?_ fun body => serializeInsert_erase _ _ body
      cases selectStmt with
      | some q => exact Query.pieces_erase q
      | none =>
          refine bind_erase (exprsPieces_erase values) fun vs => ?_
          rw [insertValues_erase]
          simp [eraseTexts]
  | ⟨.select, fromCols, columns, values, selectStmt, whereClauses, joins⟩ => by
      rw [Query.erase, Query.pieces, Query.pieces]
      refine bind_erase (joinsPieces_erase joins) fun js => ?_
      refine bind_erase (exprsPieces_erase whereClauses) fun ws => ?_
      have hcols := serializeSelectColumns_erase columns
      rw [erasePieces] at hcols
      simp [erasePieces, word, Piece.erase, serializeFrom_erase, serializeWhere_erase, hcols]
  | ⟨.insertDefault, fromCols, columns, values, selectStmt, whereClauses, joins⟩ => by
      rw [Query.erase, Query.pieces, Query.pieces, serializeFrom_erase]
      simp [erasePieces, word, Piece.erase]
  | ⟨.update, fromCols, columns, values, selectStmt, whereClauses, joins⟩ => by
      rw [Query.erase, Query.pieces, Query.pieces, isEmpty_exprsErase, length_exprsErase]
      split
      · rfl
      · rw [show (if QueryMethod.update = .select then columns else eraseTexts columns) =
          eraseTexts columns from rfl, length_eraseTexts]
        split
        · rfl
        · refine bind_erase (exprsPieces_erase values) fun vs => ?_
          refine bind_erase (exprsPieces_erase whereClauses) fun ws => ?_
          refine bind_erase (updateAssignments_erase columns vs) fun ps => ?_
          simp [erasePieces, word, Piece.erase, serializeSingleFrom_erase, serializeWhere_erase]
  | ⟨.remove, fromCols, columns, values, selectStmt, whereClauses, joins⟩ => by
      rw [Query.erase]
      cases fromCols with
      | nil => rfl
      | cons t ts =>
          rw [eraseTexts, List.map_cons, Query.pieces, Query.pieces]
          refine bind_erase (exprsPieces_erase whereClauses) fun ws => ?_
          simp [erasePieces, word, Piece.erase, serializeWhere_erase]
  | ⟨.none, fromCols, columns, values, selectStmt, whereClauses, joins⟩ => by
      rw [Query.erase, Query.pieces, Query.pieces]
      rfl

theorem joinsPieces_erase : ∀ js : List (Join F B),
    joinsPieces cast (joinsErase js) = (joinsPieces cast js).map erasePieces
  | [] => rfl
  | j :: js => by
      rw [joinsErase, joinsPieces, joinsPieces]
      refine bind_erase (Join.pieces_erase j) fun p => ?_
      refine bind_erase (joinsPieces_erase js) fun ps => ?_
      simp [erasePieces]

theorem Join.pieces_erase : ∀ j : Join F B, j.erase.pieces cast = (j.pieces cast).map erasePieces
  | ⟨cat, cond, table, expr, colNames⟩ => by
      have htable : tablePieces cast (tableErase table) =
          (tablePieces cast table).map erasePieces := by
        cases table with
        | inl tableName => rfl
        | inr q => exact Query.pieces_erase q
      have hcond : condPieces cast cond expr.erase (eraseTexts colNames) =
          (condPieces cast cond expr colNames).map erasePieces := by
        cases cond with
        | none => rfl
        | onCond =>
            rw [condPieces, condPieces, Expr.pieces_erase expr, Option.map_map, Option.map_map]
            rfl
        | usingCond =>
            rw [condPieces, condPieces, quoted_erase, commaList_erase, Option.map_map,
              Option.map_map]
            congr 1
            funext ps
            simp [erasePieces, word, Piece.erase]
      rw [Join.erase, Join.pieces_eq, Join.pieces_eq]
      refine bind_erase htable fun t => ?_
      refine bind_erase hcond fun c => ?_
      simp [erasePieces, word, Piece.erase]

end

end Printing

end Webpp.Db
