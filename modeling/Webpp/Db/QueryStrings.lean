import Webpp.Db.QueryRows

/-!
# The strings of a query

Which strings a query shows, in the order in which it shows them, and that a reader of
its text finds them: the serializers put every one of them between quotes, and write
something of their own between any two.
-/

namespace Webpp.Db

open QuotedText

variable {F B : Type} {ss : List (List Char)} {ps : List SqlPiece}

/-! ## The strings -/

/-- Column names and the strings of their values, in turn. -/
def assignmentStrings : List (List Char) → List (List (List Char)) → List (List Char)
  | c :: cs, ss :: sss => c :: ss ++ assignmentStrings cs sss
  | _, _ => []

mutual

/-- The strings of an expression object. -/
def Expr.strings : Expr F B → List (List Char)
  | .string val => [val]
  | .colName schemaName tableName columnName => [schemaName, tableName, columnName]
  | .unary _ expr => expr.strings
  | .binary _ left right => left.strings ++ right.strings
  | .list exprs => (exprsStrings exprs).flatten
  | .isNull _ expr => expr.strings
  | .isExpr _ left right => left.strings ++ right.strings
  | .inExpr _ left exprs selectStmt =>
      left.strings ++
        match exprs with
        | e :: es => e.strings ++ (exprsStrings es).flatten
        | [] =>
            match selectStmt with
            | some q => q.strings
            | none => []
  | _ => []

def exprsStrings : List (Expr F B) → List (List (List Char))
  | [] => []
  | e :: es => e.strings :: exprsStrings es

/-- The strings that a query shows. The select list of a select query is not among them. -/
def Query.strings : Query F B → List (List Char)
  | ⟨method, fromCols, columns, values, selectStmt, whereClauses, joins⟩ =>
      match method with
      | .insert =>
          fromCols.take 1 ++ columns ++
            match selectStmt with
            | some q => q.strings
            | none => (exprsStrings values).flatten
      | .select => fromCols ++ joinsStrings joins ++ (exprsStrings whereClauses).flatten
      | .insertDefault => fromCols
      | .update =>
          if values.isEmpty then []
          else fromCols.take 1 ++ assignmentStrings columns (exprsStrings values) ++
            (exprsStrings whereClauses).flatten
      | .remove =>
          match fromCols with
          | [] => []
          | t :: _ => t :: (exprsStrings whereClauses).flatten
      | .none => []

def joinsStrings : List (Join F B) → List (List Char)
  | [] => []
  | j :: js => j.strings ++ joinsStrings js

/-- The strings of a join. -/
def Join.strings : Join F B → List (List Char)
  | ⟨_, cond, table, expr, colNames⟩ =>
      (match table with
        | .inl tableName => [tableName]
        | .inr query => query.strings) ++
      match cond with
      | .none => []
      | .onCond => expr.strings
      | .usingCond => colNames

end

/-! ## Pieces that show strings -/

/-- The pieces can be read again and show these strings. The flag says that a quoted
string stands in front of them. -/
structure Shows (b : Bool) (ps : List SqlPiece) (ss : List (List Char)) : Prop where
  separated : Separated quoteChar b ps
  strings_eq : strings ps = ss

theorem Shows.append {b : Bool} {ps qs : List SqlPiece} {ss ts : List (List Char)}
    (hp : Shows b ps ss) (hq : Shows true qs ts) : Shows b (ps ++ qs) (ss ++ ts) :=
  ⟨hp.separated.append hq.separated, by rw [strings_append, hp.strings_eq, hq.strings_eq]⟩

theorem Shows.anywhere (h : Shows true ps ss) (b : Bool) : Shows b ps ss :=
  ⟨h.separated.anywhere b, h.strings_eq⟩

theorem shows_nil (b : Bool) : Shows b [] [] := ⟨trivial, rfl⟩

/-- A word that keeps quoted strings apart. -/
def PlainWord (s : String) : Prop := quoteChar ∉ s.toList ∧ s.toList ≠ []

instance (s : String) : Decidable (PlainWord s) := inferInstanceAs (Decidable (_ ∧ _))

theorem Shows.word {s : String}
    (h : Shows false ps ss) (hs : PlainWord s) (b : Bool) : Shows b (word s :: ps) ss :=
  ⟨h.separated.raw hs.1 hs.2 b, h.strings_eq⟩

theorem Shows.quoted (h : Shows true ps ss)
    (s : List Char) : Shows false (.quoted s :: ps) (s :: ss) :=
  ⟨⟨rfl, h.separated⟩, by rw [strings_quoted, h.strings_eq]⟩

theorem Shows.close {s : String} {b : Bool}
    (h : Shows b ps ss) (hs : PlainWord s) : Shows b (ps ++ [Db.word s]) ss := by
  have hend := h.append ((shows_nil false).word hs true)
  rwa [List.append_nil] at hend

theorem Shows.enclose {s t : String}
    (h : Shows false ps ss) (hs : PlainWord s) (ht : PlainWord t) (b : Bool) :
    Shows b (Db.word s :: ps ++ [Db.word t]) ss :=
  (h.close ht).word hs b

/-- Lists of pieces and lists of strings, one for one. -/
abbrev ShowsAll (b : Bool) : List (List SqlPiece) → List (List (List Char)) → Prop :=
  List.Forall₂ (Shows b)

theorem ShowsAll.flatten {pss : List (List SqlPiece)} {sss : List (List (List Char))}
    (h : ShowsAll true pss sss) (b : Bool) : Shows b pss.flatten sss.flatten := by
  induction h generalizing b with
  | nil => exact shows_nil b
  | cons h hs ih => exact (h.anywhere b).append (ih true)

theorem ShowsAll.commaPieces {pss : List (List SqlPiece)} {sss : List (List (List Char))}
    (h : ShowsAll false pss sss) : Shows false (Db.commaPieces pss) sss.flatten := by
  induction h with
  | nil => exact shows_nil false
  | @cons ps ss pss sss h hs ih =>
      cases hs with
      | nil => simpa [Db.commaPieces] using h
      | cons h' hs =>
          rw [Db.commaPieces]
          · exact h.append (ih.word (by decide) true)
          · simp

theorem showsAll_quoted (cs : List (List Char)) :
    ShowsAll false (cs.map fun c => [.quoted c]) (cs.map fun c => [c]) := by
  induction cs with
  | nil => exact .nil
  | cons c cs ih => exact .cons ((shows_nil true).quoted c) ih

theorem plainWord_unaryOp (op : UnaryOp) : PlainWord op.text := by
  cases op <;> decide

theorem plainWord_binaryOp (op : BinaryOp) : PlainWord op.text := by
  cases op <;> decide

theorem plainWord_nullOp (op : NullOp) : PlainWord op.text := by
  cases op <;> decide

theorem plainWord_isOp (op : IsOp) : PlainWord op.text := by
  cases op <;> decide

theorem plainWord_inOp (op : InOp) : PlainWord op.text := by
  cases op <;> decide

theorem plainWord_joinCat (cat : JoinCat) : PlainWord cat.text := by
  cases cat <;> decide

theorem plainWord_integer (val : Int) : quoteChar ∉ (toString val).toList := by
  have hdigits : ∀ n : ℕ, quoteChar ∉ (toString n).toList := by
    intro n h
    have hdigit : quoteChar.isDigit = true := by
      have hmem : quoteChar ∈ Nat.toDigits 10 n := by simpa [Nat.repr] using h
      exact Nat.isDigit_of_mem_toDigits (by decide) (by decide) hmem
    exact absurd hdigit (by decide)
  cases val with
  | ofNat n => exact hdigits n
  | negSucc n =>
      have htext : (toString (Int.negSucc n)).toList = '-' :: (toString (n + 1)).toList := by
        simp [Int.repr]
      rw [htext, List.mem_cons, not_or]
      exact ⟨by decide, hdigits _⟩

/-! ## Expression objects -/

/-- The expression can be printed, and a reader of the text finds its strings. -/
def Expr.Reads (cast : Casts F B) (e : Expr F B) : Prop :=
  ∃ ps, e.pieces cast = some ps ∧ Shows false ps e.strings

def Query.Reads (cast : Casts F B) (q : Query F B) : Prop :=
  ∃ ps, q.pieces cast = some ps ∧ Shows false ps q.strings

def Join.Reads (cast : Casts F B) (j : Join F B) : Prop :=
  ∃ ps, j.pieces cast = some ps ∧ Shows true ps j.strings

theorem exprsPieces_of_reads {cast : Casts F B} {es : List (Expr F B)}
    (h : ∀ e ∈ es, e.Reads cast) :
    ∃ pss, exprsPieces cast es = some pss ∧ ShowsAll false pss (exprsStrings es) := by
  induction es with
  | nil => exact ⟨[], rfl, .nil⟩
  | cons e es ih =>
      obtain ⟨ps, hps, hshows⟩ := h e (by simp)
      obtain ⟨pss, hpss, hall⟩ := ih fun e' he' => h e' (by simp [he'])
      exact ⟨ps :: pss, by rw [exprsPieces, hps, hpss]; rfl, .cons hshows hall⟩

theorem commaList_of_reads {cast : Casts F B} {es : List (Expr F B)} (hne : es ≠ [])
    (h : ∀ e ∈ es, e.Reads cast) :
    ∃ pss ps, exprsPieces cast es = some pss ∧ commaList pss = some ps ∧
      Shows false ps (exprsStrings es).flatten := by
  obtain ⟨pss, hpss, hall⟩ := exprsPieces_of_reads h
  have hpne : pss ≠ [] := by
    intro hnil
    subst hnil
    cases es with
    | nil => exact hne rfl
    | cons e es => cases hall
  exact ⟨pss, commaPieces pss, hpss, commaList_eq hpne, hall.commaPieces⟩

mutual

/-- No column name expression, no blob, and no list that is read past its end. What is
within a query is left out. -/
def Expr.Plain : Expr F B → Prop
  | .blob _ => False
  | .colName _ _ _ => False
  | .unary _ expr => expr.Plain
  | .binary _ left right => left.Plain ∧ right.Plain
  | .list exprs => exprs ≠ [] ∧ exprsPlain exprs
  | .isNull _ expr => expr.Plain
  | .isExpr _ left right => left.Plain ∧ right.Plain
  | .inExpr _ left exprs selectStmt =>
      left.Plain ∧ exprsPlain exprs ∧ (exprs = [] → selectStmt.isSome)
  | _ => True

def exprsPlain : List (Expr F B) → Prop
  | [] => True
  | e :: es => e.Plain ∧ exprsPlain es

end

mutual

/-- The queries that stand in an expression. -/
def Expr.queries : Expr F B → List (Query F B)
  | .unary _ expr => expr.queries
  | .binary _ left right => left.queries ++ right.queries
  | .list exprs => exprsQueries exprs
  | .isNull _ expr => expr.queries
  | .isExpr _ left right => left.queries ++ right.queries
  | .inExpr _ left exprs selectStmt => left.queries ++ exprsQueries exprs ++ selectStmt.toList
  | _ => []

def exprsQueries : List (Expr F B) → List (Query F B)
  | [] => []
  | e :: es => e.queries ++ exprsQueries es

end

section Reading

variable {cast : Casts F B}

/-- What stands in the parentheses of an `in` expression. -/
def inBody (cast : Casts F B) (exprs : List (Expr F B)) (selectStmt : Option (Query F B)) :
    Option (List SqlPiece) :=
  match exprs with
  | e :: es => (exprsPieces cast (e :: es)).bind commaList
  | [] => selectStmt.bind fun q => q.pieces cast

theorem Expr.pieces_inExpr (op : InOp) (left : Expr F B) (exprs : List (Expr F B))
    (selectStmt : Option (Query F B)) :
    (Expr.inExpr op left exprs selectStmt).pieces cast =
      (left.pieces cast).bind fun l =>
        (inBody cast exprs selectStmt).bind fun body =>
          some (l ++ word op.text :: body ++ [word ")"]) := by
  cases exprs with
  | nil => cases selectStmt <;> rfl
  | cons e es =>
      rw [Expr.pieces, inBody, exprsPieces]
      cases left.pieces cast with
      | none => rfl
      | some l =>
          cases e.pieces cast with
          | none => rfl
          | some p => cases exprsPieces cast es <;> rfl

theorem shows_raw {s : List Char} (hs : quoteChar ∉ s) : Shows false [.raw s] [] :=
  ⟨⟨hs, trivial⟩, rfl⟩

mutual

theorem Expr.reads (hfloat : ∀ f, quoteChar ∉ cast.float f) : ∀ e : Expr F B, e.Plain →
    (∀ q ∈ e.queries, q.Reads cast) → e.Reads cast
  | .floating val, _, _ => ⟨_, rfl, shows_raw (hfloat val)⟩
  | .integer val, _, _ => ⟨_, rfl, shows_raw (plainWord_integer val)⟩
  | .string val, _, _ => ⟨_, rfl, (shows_nil true).quoted val⟩
  | .blob _, h, _ => h.elim
  | .bool val, _, _ => ⟨_, rfl, by cases val <;> exact shows_raw (by decide)⟩
  | .null, _, _ => ⟨_, rfl, shows_raw (by decide)⟩
  | .colName _ _ _, h, _ => h.elim
  | .unary op expr, h, hq => by
      obtain ⟨ps, hps, hshows⟩ := Expr.reads hfloat expr h hq
      exact ⟨_, by rw [Expr.pieces, hps]; rfl, hshows.word (plainWord_unaryOp op) false⟩
  | .binary op left right, h, hq => by
      obtain ⟨ls, hls, hleft⟩ := Expr.reads hfloat left h.1 fun q hmem =>
        hq q (List.mem_append_left _ hmem)
      obtain ⟨rs, hrs, hright⟩ := Expr.reads hfloat right h.2 fun q hmem =>
        hq q (List.mem_append_right _ hmem)
      exact ⟨_, by rw [Expr.pieces, hls, hrs]; rfl,
        hleft.append (hright.word (plainWord_binaryOp op) true)⟩
  | .list exprs, h, hq => by
      obtain ⟨pss, ps, hpss, hps, hshows⟩ := commaList_of_reads h.1 (exprs_read hfloat exprs h.2 hq)
      refine ⟨word "(" :: ps ++ [word ")"], ?_, hshows.enclose (by decide) (by decide) false⟩
      simp [Expr.pieces, hpss, hps]
  | .isNull op expr, h, hq => by
      obtain ⟨ps, hps, hshows⟩ := Expr.reads hfloat expr h hq
      exact ⟨_, by rw [Expr.pieces, hps]; rfl, hshows.close (plainWord_nullOp op)⟩
  | .isExpr op left right, h, hq => by
      obtain ⟨ls, hls, hleft⟩ := Expr.reads hfloat left h.1 fun q hmem =>
        hq q (List.mem_append_left _ hmem)
      obtain ⟨rs, hrs, hright⟩ := Expr.reads hfloat right h.2 fun q hmem =>
        hq q (List.mem_append_right _ hmem)
      exact ⟨_, by rw [Expr.pieces, hls, hrs]; rfl,
        hleft.append (hright.word (plainWord_isOp op) true)⟩
  | .inExpr op left exprs selectStmt, h, hq => by
      obtain ⟨ls, hls, hleft⟩ := Expr.reads hfloat left h.1 fun q hmem =>
        hq q (List.mem_append_left _ (List.mem_append_left _ hmem))
      have hexprs := exprs_read hfloat exprs h.2.1 fun q hmem =>
        hq q (List.mem_append_left _ (List.mem_append_right _ hmem))
      cases exprs with
      | cons e es =>
          obtain ⟨pss, ps, hpss, hps, hshows⟩ := commaList_of_reads (by simp) hexprs
          refine ⟨ls ++ (word op.text :: ps ++ [word ")"]), ?_,
            hleft.append (hshows.enclose (plainWord_inOp op) (by decide) true)⟩
          rw [Expr.pieces_inExpr, hls, inBody, hpss]
          simp [hps]
      | nil =>
          cases selectStmt with
          | none => exact absurd (h.2.2 rfl) (by simp)
          | some q =>
              obtain ⟨ps, hps, hshows⟩ := hq q (by simp [Expr.queries])
              refine ⟨ls ++ (word op.text :: ps ++ [word ")"]), ?_,
                hleft.append (hshows.enclose (plainWord_inOp op) (by decide) true)⟩
              rw [Expr.pieces_inExpr, hls, inBody]
              simp [hps]

theorem exprs_read (hfloat : ∀ f, quoteChar ∉ cast.float f) : ∀ es : List (Expr F B),
    exprsPlain es → (∀ q ∈ exprsQueries es, q.Reads cast) → ∀ e ∈ es, e.Reads cast
  | [], _, _ => fun e he => absurd he List.not_mem_nil
  | e :: es, h, hq => by
      have hhead := Expr.reads hfloat e h.1 fun q hmem => hq q (List.mem_append_left _ hmem)
      have htail := exprs_read hfloat es h.2 fun q hmem => hq q (List.mem_append_right _ hmem)
      intro e' he'
      rcases List.mem_cons.1 he' with rfl | he'
      · exact hhead
      · exact htail e' he'

end

end Reading

end Webpp.Db
