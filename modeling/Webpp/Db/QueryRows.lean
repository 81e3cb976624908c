import Webpp.Db.QueryInsert

/-!
# Rows of an insert query

A row is what is given for some columns. The builder keeps its rows when every column
that is given is one of its columns, the values are the rows one behind the other with
null for what is not given, and `to_string` prints one tuple for each row.
-/

namespace Webpp.Db

open QuotedText

variable {F B : Type}

/-- What is given in one row. -/
abbrev Row (F B : Type) := List (List Char × Expr F B)

/-- The value a row gives for a column, or null. -/
def cell (row : Row F B) (column : List Char) : Expr F B := (row.lookup column).getD .null

/-- The text of an expression. -/
def Expr.text (cast : Casts F B) (e : Expr F B) : Option (List Char) :=
  (e.pieces cast).map (render quoteChar)

/-- Texts with `", "` between them. -/
def commaText : List (List Char) → List Char
  | [] => []
  | [e] => e
  | e :: es => e ++ ", ".toList ++ commaText es

/-- A tuple in parentheses. -/
def tupleText (es : List (List Char)) : List Char := "(".toList ++ commaText es ++ ")".toList

/-- What an insert query prints in front of its tuples. -/
def insertHeader (q : Query F B) : List Char :=
  "insert into ".toList ++ render quoteChar (serializeSingleFrom q.fromCols) ++ " ".toList ++
    tupleText (q.columns.map (quote quoteChar)) ++ "values ".toList

/-- The builder keeps the rows. -/
structure KeepsRows (cast : Casts F B) (rows : List (Row F B)) (q : Query F B) : Prop where
  known : ∀ row ∈ rows, ∀ p ∈ row, p.1 ∈ q.columns
  size : q.values.length = q.columns.length * rows.length
  cells : ∀ i row j column, rows[i]? = some row → q.columns[j]? = some column →
    q.values[q.columns.length * i + j]? = some (cell row column)
  printed : rows ≠ [] → q.toString cast =
    (rows.mapM fun row => q.columns.mapM fun column => (cell row column).text cast).map
      fun tuples => insertHeader q ++ commaText (tuples.map tupleText)

/-! ## The text of a query with full rows -/

/-- The pieces of `commaList` for any number of elements. -/
def commaPieces : List (List SqlPiece) → List SqlPiece
  | [] => []
  | [e] => e
  | e :: es => e ++ word ", " :: commaPieces es

theorem commaList_eq {es : List (List SqlPiece)} (h : es ≠ []) :
    commaList es = some (commaPieces es) := by
  induction es with
  | nil => exact absurd rfl h
  | cons e es ih =>
      cases es with
      | nil => rfl
      | cons e' es =>
          rw [commaList, ih (by simp)]
          · rfl
          · simp

theorem render_append (ps qs : List SqlPiece) :
    render quoteChar (ps ++ qs) = render quoteChar ps ++ render quoteChar qs :=
  List.flatMap_append

@[simp] theorem render_word (s : String) : (word s).text quoteChar = s.toList := rfl

theorem render_commaPieces (es : List (List SqlPiece)) :
    render quoteChar (commaPieces es) = commaText (es.map (render quoteChar)) := by
  induction es with
  | nil => rfl
  | cons e es ih =>
      cases es with
      | nil => rfl
      | cons e' es =>
          rw [commaPieces, render_append, render_cons, ih, render_word]
          · simp [commaText]
          · simp

theorem insertTuples_row (colSize : ℕ) (row rest : List (List SqlPiece)) (hrow : row ≠ []) :
    insertTuples colSize (row.length - 1) (row ++ rest) =
      if rest = [] then some (commaPieces row ++ [word ")"])
      else (insertTuples colSize (colSize - 1) rest).map
        (commaPieces row ++ word ")" :: word ", (" :: ·) := by
  induction row with
  | nil => exact absurd rfl hrow
  | cons e row ih =>
      cases row with
      | nil =>
          cases rest with
          | nil => rfl
          | cons r rest => rfl
      | cons e' row =>
          have hstep := ih (by simp)
          rw [show (e :: e' :: row).length - 1 = ((e' :: row).length - 1) + 1 from rfl]
          rw [List.cons_append, insertTuples, hstep]
          split
          · simp [commaPieces]
          · rw [Option.map_map]
            congr 1
            funext ps
            simp [commaPieces]

theorem insertTuples_rows {colSize : ℕ} (hpos : 0 < colSize)
    {rows : List (List (List SqlPiece))} (hne : rows ≠ [])
    (hlen : ∀ row ∈ rows, row.length = colSize) :
    ∃ ps, insertTuples colSize (colSize - 1) rows.flatten = some ps ∧
      "(".toList ++ render quoteChar ps =
        commaText (rows.map fun row => tupleText (row.map (render quoteChar))) := by
  induction rows with
  | nil => exact absurd rfl hne
  | cons row rows ih =>
      have hrow : row.length = colSize := hlen row (by simp)
      have hrowne : row ≠ [] := List.ne_nil_of_length_pos (by omega)
      have hsplit := insertTuples_row colSize row rows.flatten hrowne
      rw [hrow] at hsplit
      cases rows with
      | nil =>
          refine ⟨_, by rw [List.flatten_cons, hsplit, List.flatten_nil, if_pos rfl], ?_⟩
          rw [render_append, render_commaPieces]
          rfl
      | cons row' rows =>
          obtain ⟨ps, hps, htext⟩ := ih (by simp) fun r hr => hlen r (by simp [hr])
          have hrest : (row' :: rows).flatten ≠ [] := by
            have hrow' : row' ≠ [] :=
              List.ne_nil_of_length_pos (by rw [hlen row' (by simp)]; exact hpos)
            simp [hrow']
          refine ⟨_, by rw [List.flatten_cons, hsplit, if_neg hrest, hps]; rfl, ?_⟩
          rw [render_append, render_commaPieces, List.map_cons, commaText, ← htext, tupleText]
          · simp [render_cons, word, Piece.text]
          · simp

theorem mapM_map {α β γ : Type} (f : α → Option β) (g : β → γ) (xs : List α) :
    (xs.mapM fun x => (f x).map g) = (xs.mapM f).map (List.map g) := by
  induction xs with
  | nil => rfl
  | cons x xs ih =>
      rw [List.mapM_cons, List.mapM_cons, ih]
      cases f x with
      | none => rfl
      | some y => cases xs.mapM f <;> rfl

theorem exprsPieces_map {α : Type} (cast : Casts F B) (f : α → Expr F B) (xs : List α) :
    exprsPieces cast (xs.map f) = xs.mapM fun x => (f x).pieces cast := by
  induction xs with
  | nil => rfl
  | cons x xs ih =>
      rw [List.map_cons, exprsPieces, List.mapM_cons, ih]

theorem exprsPieces_append (cast : Casts F B) (es fs : List (Expr F B)) :
    exprsPieces cast (es ++ fs) =
      (exprsPieces cast es).bind fun ps => (exprsPieces cast fs).map (ps ++ ·) := by
  induction es with
  | nil => simp [exprsPieces]
  | cons e es ih =>
      rw [List.cons_append, exprsPieces, exprsPieces, ih]
      cases e.pieces cast with
      | none => rfl
      | some p =>
          cases exprsPieces cast es with
          | none => rfl
          | some ps => cases exprsPieces cast fs <;> rfl

theorem exprsPieces_flatMap {α : Type} (cast : Casts F B) (f : α → List (Expr F B)) (xs : List α) :
    exprsPieces cast (xs.flatMap f) =
      (xs.mapM fun x => exprsPieces cast (f x)).map List.flatten := by
  induction xs with
  | nil => rfl
  | cons x xs ih =>
      rw [List.flatMap_cons, exprsPieces_append, ih, List.mapM_cons]
      cases exprsPieces cast (f x) with
      | none => rfl
      | some ps => cases xs.mapM fun x => exprsPieces cast (f x) <;> rfl

theorem length_of_mapM {α β : Type} {f : α → Option β} {xs : List α} {ys : List β}
    (h : xs.mapM f = some ys) : ys.length = xs.length := by
  induction xs generalizing ys with
  | nil =>
      cases h
      rfl
  | cons x xs ih =>
      rw [List.mapM_cons] at h
      cases hx : f x with
      | none =>
          rw [hx] at h
          cases h
      | some y =>
          cases hxs : xs.mapM f with
          | none =>
              rw [hx, hxs] at h
              cases h
          | some zs =>
              rw [hx, hxs] at h
              cases h
              rw [List.length_cons, List.length_cons, ih hxs]

theorem forall_of_mapM {α β : Type} {f : α → Option β} {P : β → Prop} {xs : List α} {ys : List β}
    (h : xs.mapM f = some ys) (hP : ∀ x y, f x = some y → P y) : ∀ y ∈ ys, P y := by
  induction xs generalizing ys with
  | nil =>
      cases h
      simp
  | cons x xs ih =>
      rw [List.mapM_cons] at h
      cases hx : f x with
      | none =>
          rw [hx] at h
          cases h
      | some y =>
          cases hxs : xs.mapM f with
          | none =>
              rw [hx, hxs] at h
              cases h
          | some zs =>
              rw [hx, hxs] at h
              cases h
              intro y' hy'
              rcases List.mem_cons.1 hy' with rfl | hy'
              · exact hP x _ hx
              · exact ih hxs y' hy'

theorem render_insert (fromCols columns : List (List Char)) (ps : List SqlPiece) :
    render quoteChar (word "insert into " :: serializeSingleFrom fromCols ++
        word " " :: (word "(" :: commaPieces (columns.map fun c => [.quoted c]) ++ [word ")"]) ++
        word "values" :: word " (" :: ps) =
      "insert into ".toList ++ render quoteChar (serializeSingleFrom fromCols) ++ " ".toList ++
        tupleText (columns.map (quote quoteChar)) ++ "values ".toList ++
          ("(".toList ++ render quoteChar ps) := by
  have hcols : render quoteChar (commaPieces (columns.map fun c => [.quoted c])) =
      commaText (columns.map (quote quoteChar)) := by
    rw [render_commaPieces, List.map_map]
    congr 1
    exact List.map_congr_left fun c _ => List.append_nil _
  have hopen : " (".toList = " ".toList ++ "(".toList := rfl
  have hvalues : "values ".toList = "values".toList ++ " ".toList := rfl
  simp only [render_append, render_cons, render_word, hcols, hopen, hvalues, tupleText,
    List.append_assoc, List.nil_append, List.cons_append]

theorem toString_rows (cast : Casts F B) {q : Query F B} {rows : List (Row F B)}
    (hmethod : q.method = .insert) (hselect : q.selectStmt = none) (hcolumns : q.columns ≠ [])
    (hrows : rows ≠ []) (hvalues : q.values = rows.flatMap fun row => q.columns.map (cell row)) :
    q.toString cast =
      (rows.mapM fun row => q.columns.mapM fun column => (cell row column).text cast).map
        fun tuples => insertHeader q ++ commaText (tuples.map tupleText) := by
  have htexts : (rows.mapM fun row => q.columns.mapM fun column => (cell row column).text cast) =
      (rows.mapM fun row => exprsPieces cast (q.columns.map (cell row))).map
        (List.map (List.map (render quoteChar))) := by
    rw [← mapM_map]
    congr 1
    funext row
    rw [exprsPieces_map, ← mapM_map]
    rfl
  have hcols : insertColumns q.columns =
      some (word "(" :: commaPieces (q.columns.map fun c => [.quoted c]) ++ [word ")"]) := by
    rw [insertColumns, if_neg hcolumns, commaList_eq (by simpa using hcolumns)]
    rfl
  obtain ⟨method, fromCols, columns, values, selectStmt, whereClauses, joins⟩ := q
  dsimp only at hmethod hselect hcolumns hvalues htexts hcols
  subst hmethod hselect hvalues
  rw [htexts, Option.map_map, Query.toString, Query.pieces]
  rw [exprsPieces_flatMap]
  cases hps : (rows.mapM fun row => exprsPieces cast (columns.map (cell row))) with
  | none => simp
  | some tuples =>
      have hne : tuples ≠ [] := by
        rw [← List.length_pos_iff, length_of_mapM hps]
        exact List.length_pos_iff.2 hrows
      have hlen : ∀ t ∈ tuples, t.length = columns.length := by
        refine forall_of_mapM hps fun row t ht => ?_
        rw [exprsPieces_map] at ht
        exact length_of_mapM ht
      have hpos : 0 < columns.length := List.length_pos_iff.2 hcolumns
      obtain ⟨ps, hps', htext⟩ := insertTuples_rows hpos hne hlen
      have hvals : insertValues columns.length tuples.flatten =
          some (word "values" :: word " (" :: ps) := by
        rw [insertValues, if_neg (Nat.ne_of_gt hpos), hps']
        rfl
      simp only [Option.map_some, Option.bind_eq_bind, Option.bind_some, hvals, serializeInsert,
        hcols, Function.comp_apply, List.map_map]
      rw [render_insert, htext]
      rfl

/-! ## Full rows -/

theorem map_cell {row : Row F B} (hnodup : (row.map Prod.fst).Nodup) :
    (row.map Prod.fst).map (cell row) = row.map Prod.snd := by
  induction row with
  | nil => rfl
  | cons p row ih =>
      rw [List.map_cons, List.nodup_cons] at hnodup
      rw [List.map_cons, List.map_cons, List.map_cons, ← ih hnodup.2]
      congr 1
      · rw [cell, List.lookup_cons_self]
        rfl
      · refine List.map_congr_left fun c hc => ?_
        have hne : c ≠ p.1 := fun heq => hnodup.1 (heq ▸ hc)
        have hbeq : (c == p.1) = false := by simpa using hne
        rw [cell, cell, List.lookup_cons, hbeq]

theorem getElem?_flatMap {α β : Type} {f : α → List β} {w : ℕ} (hlen : ∀ x, (f x).length = w)
    (xs : List α) {i j : ℕ} (hj : j < w) {x : α} (hi : xs[i]? = some x) :
    (xs.flatMap f)[w * i + j]? = (f x)[j]? := by
  induction xs generalizing i with
  | nil => cases hi
  | cons y xs ih =>
      rw [List.flatMap_cons]
      cases i with
      | zero =>
          obtain rfl := Option.some.inj hi
          rw [Nat.mul_zero, Nat.zero_add, List.getElem?_append_left (by rw [hlen]; exact hj)]
      | succ i =>
          rw [List.getElem?_append_right (by rw [hlen, Nat.mul_succ]; omega), hlen,
            show w * (i + 1) + j - w = w * i + j by rw [Nat.mul_succ]; omega]
          exact ih hi

theorem keepsRows_of_values (cast : Casts F B) {q : Query F B} {rows : List (Row F B)}
    (hmethod : rows ≠ [] → q.method = .insert) (hselect : q.selectStmt = none)
    (hcolumns : rows ≠ [] → q.columns ≠ []) (hnodup : q.columns.Nodup)
    (hnames : ∀ row ∈ rows, row.map Prod.fst = q.columns)
    (hvalues : q.values = rows.flatMap fun row => row.map Prod.snd) : KeepsRows cast rows q := by
  have hcells : ∀ row ∈ rows, q.columns.map (cell row) = row.map Prod.snd := by
    intro row hrow
    rw [← hnames row hrow]
    exact map_cell ((hnames row hrow).symm ▸ hnodup)
  have hvalues' : q.values = rows.flatMap fun row => q.columns.map (cell row) := by
    rw [hvalues]
    exact List.flatMap_congr fun row hrow => (hcells row hrow).symm
  refine ⟨?_, ?_, ?_, ?_⟩
  · intro row hrow p hp
    rw [← hnames row hrow]
    exact List.mem_map_of_mem hp
  · rw [hvalues', List.length_flatMap]
    simp [Nat.mul_comm]
  · intro i row j column hi hj
    have hjlt : j < q.columns.length := (List.getElem?_eq_some_iff.1 hj).1
    rw [hvalues', getElem?_flatMap (fun row => List.length_map _) rows hjlt hi, List.getElem?_map,
      hj]
    rfl
  · intro hne
    exact toString_rows cast (hmethod hne) hselect (hcolumns hne) hne hvalues'

end Webpp.Db
