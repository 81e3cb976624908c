import Webpp.Db.QueryStrings

/-!
# Reading a query

A query whose fields are read is read as a whole: each serializer puts words of its own
between the strings. What it needs besides is that the values and the columns fit.
-/

namespace Webpp.Db

open QuotedText

variable {F B : Type} {cast : Casts F B} {q : Query F B} {pss : List (List SqlPiece)}
  {sss : List (List (List Char))}

/-! ## The helpers of the serializers -/

theorem serializeFrom_shows (ts : List (List Char)) : Shows false (serializeFrom ts) ts := by
  induction ts with
  | nil => exact shows_nil false
  | cons t ts ih =>
      cases ts with
      | nil => exact (shows_nil true).quoted t
      | cons t' ts =>
          rw [serializeFrom]
          · exact (ih.word (by decide) true).quoted t
          · simp

theorem serializeSingleFrom_shows (ts : List (List Char)) :
    Shows false (serializeSingleFrom ts) (ts.take 1) := by
  cases ts with
  | nil => exact shows_nil false
  | cons t ts => exact (shows_nil true).quoted t

theorem joinColumns_shows {cs : List (List Char)} (h : ∀ c ∈ cs, quoteChar ∉ c) :
    Shows false (joinColumns cs) [] := by
  induction cs with
  | nil => exact shows_nil false
  | cons c cs ih =>
      have hc := h c (by simp)
      cases cs with
      | nil => exact shows_raw hc
      | cons c' cs =>
          have hrest := (ih fun d hd => h d (by simp [hd])).word (s := ", ") (by decide) false
          rw [joinColumns]
          · exact ⟨⟨hc, hrest.separated⟩, hrest.strings_eq⟩
          · simp

theorem serializeSelectColumns_shows {cs : List (List Char)} (h : ∀ c ∈ cs, quoteChar ∉ c) :
    Shows false (serializeSelectColumns cs) [] := by
  rw [serializeSelectColumns]
  split
  · exact shows_raw (by decide)
  · exact joinColumns_shows h

theorem flatten_singletons (cs : List (List Char)) : (cs.map fun c => [c]).flatten = cs := by
  rw [← List.flatMap_def]
  exact List.flatMap_singleton' cs

theorem insertColumns_shows (cs : List (List Char)) {body : List SqlPiece}
    {ss : List (List Char)} (h : Shows false body ss) :
    ∃ cols, insertColumns cs = some cols ∧ Shows false (cols ++ body) (cs ++ ss) := by
  by_cases hcs : cs = []
  · subst hcs
    exact ⟨[], rfl, h⟩
  · have hne : cs.map (fun c => [Piece.quoted c]) ≠ [] := by simpa using hcs
    have hcols := (showsAll_quoted cs).commaPieces
    rw [flatten_singletons] at hcols
    refine ⟨word "(" :: commaPieces (cs.map fun c => [.quoted c]) ++ [word ")"], ?_, ?_⟩
    · rw [insertColumns, if_neg hcs, commaList_eq hne]
      rfl
    · have hbody := (hcols.append (h.word (s := ")") (by decide) true)).word (s := "(")
        (by decide) false
      simpa using hbody

/-- The tuples of full rows, with `k` more values in the tuple behind the next one. -/
theorem insertTuples_shows {w : ℕ} (hw : 0 < w) (h : ShowsAll false pss sss) {k m : ℕ}
    (hlen : pss.length = k + 1 + w * m) :
    ∃ ps, insertTuples w k pss = some ps ∧ Shows false ps sss.flatten := by
  induction h generalizing k m with
  | nil =>
      rw [List.length_nil] at hlen
      omega
  | @cons e ss es sss h hs ih =>
      rw [List.length_cons] at hlen
      cases k with
      | zero =>
          cases hs with
          | nil =>
              refine ⟨e ++ [word ")"], rfl, ?_⟩
              simpa using h.close (s := ")") (by decide)
          | @cons e' ss' es sss h' hs =>
              cases m with
              | zero =>
                  rw [List.length_cons, Nat.mul_zero] at hlen
                  omega
              | succ m =>
                  have hrest : (e' :: es).length = w - 1 + 1 + w * m := by
                    rw [Nat.mul_succ] at hlen
                    omega
                  obtain ⟨ps, hps, hshows⟩ := ih hrest
                  refine ⟨e ++ word ")" :: word ", (" :: ps, ?_, ?_⟩
                  · rw [insertTuples, hps]
                    · rfl
                    · simp
                  · exact h.append ((hshows.word (by decide) false).word (by decide) true)
      | succ k =>
          obtain ⟨ps, hps, hshows⟩ := ih (k := k) (m := m) (by omega)
          refine ⟨e ++ word ", " :: ps, ?_, ?_⟩
          · rw [insertTuples, hps]
            rfl
          · exact h.append (hshows.word (by decide) true)

theorem insertValues_shows {w : ℕ} (hw : 0 < w) (h : ShowsAll false pss sss) (hne : pss ≠ [])
    (hdvd : w ∣ pss.length) :
    ∃ ps, insertValues w pss = some ps ∧ Shows false ps sss.flatten := by
  obtain ⟨m, hm⟩ := hdvd
  have hpos : 0 < pss.length := List.length_pos_iff.2 hne
  cases m with
  | zero => omega
  | succ m =>
      obtain ⟨ps, hps, hshows⟩ := insertTuples_shows hw h (k := w - 1) (m := m)
        (by rw [hm, Nat.mul_succ]; omega)
      refine ⟨word "values" :: word " (" :: ps, ?_, ?_⟩
      · rw [insertValues, if_neg (Nat.ne_of_gt hw), hps]
        rfl
      · exact (hshows.word (by decide) false).word (by decide) false

theorem updateAssignments_shows (cs : List (List Char))
    (h : ShowsAll false pss sss) (hne : pss ≠ []) (hlen : pss.length = cs.length) :
    ∃ ps, updateAssignments cs pss = some ps ∧ Shows false ps (assignmentStrings cs sss) := by
  induction h generalizing cs with
  | nil => exact absurd rfl hne
  | @cons e ss es sss h hs ih =>
      cases cs with
      | nil => cases hlen
      | cons c cs =>
          cases hs with
          | nil =>
              refine ⟨.quoted c :: word " = " :: e, rfl, ?_⟩
              have hshows := (h.word (s := " = ") (by decide) true).quoted c
              cases cs <;> simpa [assignmentStrings] using hshows
          | cons h' hs =>
              obtain ⟨ps, hps, hshows⟩ := ih cs (by simp) (Nat.succ.inj hlen)
              refine ⟨.quoted c :: word " = " :: e ++ word ", " :: ps, ?_, ?_⟩
              · rw [updateAssignments, hps]
                · rfl
                · simp
              · have hrest := h.append (hshows.word (s := ", ") (by decide) true)
                exact (hrest.word (s := " = ") (by decide) true).quoted c

/-! ## Joins and where clauses -/

/-- The condition of a join with `using` names a column. -/
def Join.NamesColumns (j : Join F B) : Prop := j.cond = .usingCond → j.colNames ≠ []

/-- The table or the query of a join. -/
def tablePieces (cast : Casts F B) : List Char ⊕ Query F B → Option (List SqlPiece)
  | .inl tableName => some [.quoted tableName]
  | .inr query => query.pieces cast

def tableStrings : List Char ⊕ Query F B → List (List Char)
  | .inl tableName => [tableName]
  | .inr query => query.strings

/-- The condition of a join. -/
def condPieces (cast : Casts F B) (cond : CondType) (expr : Expr F B)
    (colNames : List (List Char)) : Option (List SqlPiece) :=
  match cond with
  | .none => some []
  | .onCond => (expr.pieces cast).map (word "on " :: ·)
  | .usingCond =>
      (commaList (colNames.map fun c => [.quoted c])).map fun ps =>
        word "using (" :: ps ++ [word ")"]

theorem Join.pieces_eq (cat : JoinCat) (cond : CondType) (table : List Char ⊕ Query F B)
    (expr : Expr F B) (colNames : List (List Char)) :
    (Join.mk cat cond table expr colNames).pieces cast =
      (tablePieces cast table).bind fun t =>
        (condPieces cast cond expr colNames).bind fun c =>
          some (word cat.text :: t ++ word " " :: c) := by
  cases table <;> cases cond <;> rfl

theorem Join.strings_using (cat : JoinCat) (table : List Char ⊕ Query F B) (expr : Expr F B)
    (colNames : List (List Char)) :
    (Join.mk cat .usingCond table expr colNames).strings = tableStrings table ++ colNames := by
  cases table <;> rfl

theorem tablePieces_shows {table : List Char ⊕ Query F B}
    (htable : ∀ q, table = .inr q → q.Reads cast) :
    ∃ ts, tablePieces cast table = some ts ∧ Shows false ts (tableStrings table) := by
  cases table with
  | inl tableName => exact ⟨_, rfl, (shows_nil true).quoted tableName⟩
  | inr q => exact htable q rfl

theorem Join.reads_using {cat : JoinCat} {table : List Char ⊕ Query F B} {expr : Expr F B}
    {colNames : List (List Char)} (hcols : colNames ≠ [])
    (htable : ∀ q, table = .inr q → q.Reads cast) :
    (Join.mk cat .usingCond table expr colNames).Reads cast := by
  obtain ⟨ts, hts, htshows⟩ := tablePieces_shows htable
  have hne : colNames.map (fun c => [Piece.quoted c]) ≠ [] := by simpa using hcols
  have husing := ((showsAll_quoted colNames).commaPieces.enclose (s := "using (") (t := ")")
    (by decide) (by decide) false).word (s := " ") (by decide) true
  refine ⟨word cat.text :: (ts ++ word " " ::
    (word "using (" :: commaPieces (colNames.map fun c => [.quoted c]) ++ [word ")"])), ?_, ?_⟩
  · rw [Join.pieces_eq, hts, condPieces, commaList_eq hne]
    rfl
  · rw [Join.strings_using]
    rw [flatten_singletons] at husing
    exact (htshows.append husing).word (plainWord_joinCat cat) true

theorem joinsPieces_of_reads {js : List (Join F B)} (h : ∀ j ∈ js, j.Reads cast) :
    ∃ ps, joinsPieces cast js = some ps ∧ Shows true ps (joinsStrings js) := by
  induction js with
  | nil => exact ⟨[], rfl, shows_nil true⟩
  | cons j js ih =>
      obtain ⟨ps, hps, hshows⟩ := h j (by simp)
      obtain ⟨qs, hqs, hrest⟩ := ih fun j' hj' => h j' (by simp [hj'])
      exact ⟨ps ++ qs, by rw [joinsPieces, hps, hqs]; rfl, hshows.append hrest⟩

/-- An expression that begins with an operator. -/
def Expr.Connected (e : Expr F B) : Prop := ∃ op e', e = .unary op e'

theorem Expr.Reads.behind {e : Expr F B} (h : e.Reads cast) (hconn : e.Connected)
    {ps : List SqlPiece} (hps : e.pieces cast = some ps) : Shows true ps e.strings := by
  obtain ⟨op, e', rfl⟩ := hconn
  obtain ⟨ps', hps', hshows⟩ := h
  obtain rfl := Option.some.inj (hps.symm.trans hps')
  rw [Expr.pieces] at hps
  obtain ⟨qs, _, rfl⟩ := Option.map_eq_some_iff.1 hps
  refine ⟨?_, hshows.strings_eq⟩
  exact Separated.raw (plainWord_unaryOp op).1 (plainWord_unaryOp op).2 hshows.separated.2 true

theorem exprsPieces_connected {es : List (Expr F B)} (h : ∀ e ∈ es, e.Reads cast)
    (hconn : ∀ e ∈ es, e.Connected) :
    ∃ pss, exprsPieces cast es = some pss ∧ ShowsAll true pss (exprsStrings es) := by
  induction es with
  | nil => exact ⟨[], rfl, .nil⟩
  | cons e es ih =>
      obtain ⟨ps, hps, _⟩ := h e (by simp)
      obtain ⟨pss, hpss, hall⟩ := ih (fun e' he' => h e' (List.mem_cons_of_mem _ he'))
        fun e' he' => hconn e' (List.mem_cons_of_mem _ he')
      have hbehind := (h e (by simp)).behind (hconn e (by simp)) hps
      exact ⟨ps :: pss, by rw [exprsPieces, hps, hpss]; rfl, .cons hbehind hall⟩

theorem serializeWhere_shows {es : List (Expr F B)} (h : ∀ e ∈ es, e.Reads cast)
    (hconn : ∀ e ∈ es.tail, e.Connected) :
    ∃ pss, exprsPieces cast es = some pss ∧
      Shows true (serializeWhere pss) (exprsStrings es).flatten := by
  cases es with
  | nil => exact ⟨[], rfl, shows_nil true⟩
  | cons e es =>
      obtain ⟨ps, hps, hshows⟩ := h e (by simp)
      have hbehind : ∀ e' ∈ es, e'.Connected := hconn
      obtain ⟨pss, hpss, hall⟩ := exprsPieces_connected
        (fun e' he' => h e' (List.mem_cons_of_mem _ he')) hbehind
      refine ⟨ps :: pss, by rw [exprsPieces, hps, hpss]; rfl, ?_⟩
      rw [serializeWhere, if_neg (by simp)]
      exact (hshows.append (hall.flatten true)).word (by decide) true

/-! ## Queries -/

/-- The values fit the columns wherever the serializer relies on it. -/
def Query.Aligned (q : Query F B) : Prop :=
  (q.method = .insert → q.selectStmt = none →
      q.columns ≠ [] ∧ q.values ≠ [] ∧ q.columns.length ∣ q.values.length) ∧
    (q.method = .update → q.values ≠ [] → q.values.length = q.columns.length)

/-- All that the query holds is read. -/
structure FieldsRead (cast : Casts F B) (q : Query F B) : Prop where
  values : ∀ e ∈ q.values, e.Reads cast
  selectStmt : ∀ s, q.selectStmt = some s → s.Reads cast
  whereClauses : ∀ e ∈ q.whereClauses, e.Reads cast
  connected : ∀ e ∈ q.whereClauses.tail, e.Connected
  joins : ∀ j ∈ q.joins, j.Reads cast
  columns : q.method = .select → ∀ c ∈ q.columns, quoteChar ∉ c

/-- What stands behind the column names of an insert query. -/
def Query.insertBody (cast : Casts F B) (q : Query F B) : Option (List SqlPiece) :=
  match q.selectStmt with
  | some s => s.pieces cast
  | none => (exprsPieces cast q.values).bind (insertValues q.columns.length)

def Query.insertBodyStrings (q : Query F B) : List (List Char) :=
  match q.selectStmt with
  | some s => s.strings
  | none => (exprsStrings q.values).flatten

theorem Query.pieces_insert (hmethod : q.method = .insert) :
    q.pieces cast = (q.insertBody cast).bind (serializeInsert q.fromCols q.columns) := by
  obtain ⟨method, fromCols, columns, values, selectStmt, whereClauses, joins⟩ := q
  cases hmethod
  cases selectStmt <;> rfl

theorem Query.strings_insert (hmethod : q.method = .insert) :
    q.strings = q.fromCols.take 1 ++ q.columns ++ q.insertBodyStrings := by
  obtain ⟨method, fromCols, columns, values, selectStmt, whereClauses, joins⟩ := q
  cases hmethod
  cases selectStmt <;> rfl

theorem length_exprsPieces {es : List (Expr F B)}
    (h : exprsPieces cast es = some pss) : pss.length = es.length := by
  have hmap := exprsPieces_map cast id es
  rw [List.map_id, h] at hmap
  exact length_of_mapM hmap.symm

theorem insertBody_shows (h : FieldsRead cast q) (ha : q.Aligned) (hmethod : q.method = .insert) :
    ∃ body, q.insertBody cast = some body ∧ Shows false body q.insertBodyStrings := by
  rw [Query.insertBody, Query.insertBodyStrings]
  cases hselect : q.selectStmt with
  | some s => exact h.selectStmt s hselect
  | none =>
      obtain ⟨hcols, hvalues, hdvd⟩ := ha.1 hmethod hselect
      obtain ⟨pss, hpss, hall⟩ := exprsPieces_of_reads h.values
      have hlen := length_exprsPieces hpss
      have hne : pss ≠ [] := by
        rw [← List.length_pos_iff, hlen]
        exact List.length_pos_iff.2 hvalues
      obtain ⟨ps, hps, hshows⟩ := insertValues_shows (List.length_pos_iff.2 hcols) hall hne
        (by rw [hlen]; exact hdvd)
      exact ⟨ps, by rw [hpss]; exact hps, hshows⟩

theorem insert_reads (h : FieldsRead cast q) (ha : q.Aligned)
    (hmethod : q.method = .insert) : q.Reads cast := by
  obtain ⟨body, hbody, hshows⟩ := insertBody_shows h ha hmethod
  obtain ⟨cols, hcols, hrest⟩ := insertColumns_shows q.columns hshows
  have hfrom := (serializeSingleFrom_shows q.fromCols).append
    (hrest.word (s := " ") (by decide) true)
  have hall := hfrom.word (s := "insert into ") (by decide) false
  refine ⟨word "insert into " :: (serializeSingleFrom q.fromCols ++ word " " :: (cols ++ body)),
    ?_, ?_⟩
  · rw [Query.pieces_insert hmethod, hbody]
    simp [serializeInsert, hcols]
  · rw [Query.strings_insert hmethod, List.append_assoc]
    exact hall

theorem select_reads (h : FieldsRead cast q) (hmethod : q.method = .select) :
    q.Reads cast := by
  have hcolumns := serializeSelectColumns_shows (h.columns hmethod)
  obtain ⟨js, hjs, hjoins⟩ := joinsPieces_of_reads h.joins
  obtain ⟨ws, hws, hwheres⟩ := serializeWhere_shows h.whereClauses h.connected
  obtain ⟨method, fromCols, columns, values, selectStmt, whereClauses, joins⟩ := q
  dsimp only at hmethod hcolumns hjs hjoins hws hwheres
  subst hmethod
  have hfrom := ((serializeFrom_shows fromCols).append (hjoins.append hwheres)).word
    (s := " from ") (by decide) true
  have hall := (hcolumns.append hfrom).word (s := "select ") (by decide) false
  refine ⟨word "select " :: (serializeSelectColumns columns ++
    word " from " :: (serializeFrom fromCols ++ (js ++ serializeWhere ws))), ?_, ?_⟩
  · simp [Query.pieces, hjs, hws]
  · simpa [Query.strings] using hall

theorem update_reads (h : FieldsRead cast q) (ha : q.Aligned)
    (hmethod : q.method = .update) : q.Reads cast := by
  obtain ⟨vs, hvs, hvalues⟩ := exprsPieces_of_reads h.values
  obtain ⟨ws, hws, hwheres⟩ := serializeWhere_shows h.whereClauses h.connected
  have hlen := length_exprsPieces hvs
  have hfit := ha.2 hmethod
  obtain ⟨method, fromCols, columns, values, selectStmt, whereClauses, joins⟩ := q
  dsimp only at hmethod hvs hvalues hws hwheres hlen hfit
  subst hmethod
  by_cases hempty : values = []
  · subst hempty
    exact ⟨[], rfl, shows_nil false⟩
  · have hne : ¬ values.isEmpty = true := by simpa using hempty
    have hvne : vs ≠ [] := by
      rw [← List.length_pos_iff, hlen]
      exact List.length_pos_iff.2 hempty
    obtain ⟨ps, hps, hshows⟩ := updateAssignments_shows columns hvalues hvne
      (hlen.trans (hfit hempty))
    have hset := (hshows.append hwheres).word (s := " set ") (by decide) true
    have hall := ((serializeSingleFrom_shows fromCols).append hset).word (s := "update ")
      (by decide) false
    refine ⟨word "update " :: (serializeSingleFrom fromCols ++
      word " set " :: (ps ++ serializeWhere ws)), ?_, ?_⟩
    · rw [Query.pieces, if_neg hne, if_neg (not_not.2 (hfit hempty)), hvs, hws]
      simp [hps]
    · rw [Query.strings, if_neg hne, List.append_assoc]
      exact hall

theorem Query.reads (h : FieldsRead cast q) (ha : q.Aligned) : q.Reads cast := by
  cases hmethod : q.method with
  | insert => exact insert_reads h ha hmethod
  | select => exact select_reads h hmethod
  | update => exact update_reads h ha hmethod
  | insertDefault =>
      obtain ⟨method, fromCols, columns, values, selectStmt, whereClauses, joins⟩ := q
      cases hmethod
      have hall := ((serializeFrom_shows fromCols).close (s := " default values") (by decide)).word
        (s := "insert into ") (by decide) false
      exact ⟨_, rfl, hall⟩
  | remove =>
      obtain ⟨ws, hws, hwheres⟩ := serializeWhere_shows h.whereClauses h.connected
      obtain ⟨method, fromCols, columns, values, selectStmt, whereClauses, joins⟩ := q
      dsimp only at hws hwheres
      cases hmethod
      cases fromCols with
      | nil => exact ⟨[], rfl, shows_nil false⟩
      | cons t ts =>
          have hall := (hwheres.quoted t).word (s := "delete from ") (by decide) false
          exact ⟨_, by rw [Query.pieces, hws]; rfl, hall⟩
  | none =>
      obtain ⟨method, fromCols, columns, values, selectStmt, whereClauses, joins⟩ := q
      cases hmethod
      exact ⟨[], rfl, shows_nil false⟩

end Webpp.Db
