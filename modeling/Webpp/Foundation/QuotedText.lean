import Mathlib.Data.List.Basic

/-!
# Texts with quoted literals

A text is written from pieces: what the writer itself says, and the strings it
puts between quotes with every quote doubled. A reader splits a text into
literals, each from a quote to the next one that is not doubled, and other
characters. The reader finds the pieces again where the writer's own words have
no quote and something of them stands between any two literals.
-/

namespace QuotedText

variable {α : Type*}

section Writing

variable [DecidableEq α]

/-- A string with every quote doubled. -/
def escape (q : α) : List α → List α
  | [] => []
  | c :: cs => if c = q then c :: c :: escape q cs else c :: escape q cs

/-- A string between quotes. -/
def quote (q : α) (s : List α) : List α := q :: (escape q s ++ [q])

/-- What a writer puts into a text. -/
inductive Piece (α : Type*) where
  | raw (s : List α)
  | quoted (s : List α)
  deriving DecidableEq

/-- The text of one piece. -/
def Piece.text (q : α) : Piece α → List α
  | .raw s => s
  | .quoted s => quote q s

/-- The text that is written from the pieces. -/
def render (q : α) (ps : List (Piece α)) : List α := ps.flatMap (Piece.text q)

@[simp] theorem render_nil (q : α) : render q ([] : List (Piece α)) = [] := rfl

@[simp] theorem render_cons (q : α) (p : Piece α) (ps : List (Piece α)) :
    render q (p :: ps) = p.text q ++ render q ps := rfl

end Writing

/-! ## Reading -/

/-- What a reader finds in a text. -/
inductive Token (α : Type*) where
  | lit (s : List α)
  | other (c : α)
  deriving DecidableEq

/-- The kind of a token: that it is a literal, or which character it is. -/
def Token.kind : Token α → Option α
  | .lit _ => none
  | .other c => some c

/-- The content of a literal. -/
def Token.content? : Token α → Option (List α)
  | .lit s => some s
  | .other _ => none

/-- The contents of the literals, in order. -/
def literals (ts : List (Token α)) : List (List α) := ts.filterMap Token.content?

section Reading

variable [DecidableEq α]

/-- Where a reader stands: outside, in a literal, or behind a quote in a literal. -/
inductive Place (α : Type*) where
  | outside
  | within (s : List α)
  | behindQuote (s : List α)

/-- The tokens of a text, read from a place on. A literal without an end is refused. -/
def lexFrom (q : α) : Place α → List α → Option (List (Token α))
  | .outside, [] => some []
  | .outside, c :: cs =>
      if c = q then lexFrom q (.within []) cs
      else (lexFrom q .outside cs).map (Token.other c :: ·)
  | .within _, [] => none
  | .within s, c :: cs =>
      if c = q then lexFrom q (.behindQuote s) cs else lexFrom q (.within (s ++ [c])) cs
  | .behindQuote s, [] => some [.lit s]
  | .behindQuote s, c :: cs =>
      if c = q then lexFrom q (.within (s ++ [c])) cs
      else (lexFrom q .outside cs).map (Token.lit s :: Token.other c :: ·)

/-- The tokens of a text. -/
def lex (q : α) (text : List α) : Option (List (Token α)) := lexFrom q .outside text

variable {q : α}

theorem lexFrom_escape (s acc cs : List α) :
    lexFrom q (.within acc) (escape q s ++ q :: cs) = lexFrom q (.behindQuote (acc ++ s)) cs := by
  induction s generalizing acc with
  | nil => simp [escape, lexFrom]
  | cons c s ih =>
      rw [escape]
      split
      · rename_i hc
        subst hc
        simp only [List.cons_append, lexFrom, if_true]
        rw [ih]
        simp
      · rename_i hc
        simp only [List.cons_append, lexFrom, if_neg hc]
        rw [ih]
        simp

theorem lexFrom_quote (s cs : List α) :
    lexFrom q .outside (quote q s ++ cs) = lexFrom q (.behindQuote s) cs := by
  have h := lexFrom_escape (q := q) s [] cs
  simpa [quote, lexFrom] using h

theorem lexFrom_raw {s : List α} (hs : q ∉ s) (cs : List α) :
    lexFrom q .outside (s ++ cs) =
      (lexFrom q .outside cs).map (s.map Token.other ++ ·) := by
  induction s with
  | nil => simp
  | cons c s ih =>
      rw [List.mem_cons, not_or] at hs
      rw [List.cons_append, lexFrom, if_neg (Ne.symm hs.1), ih hs.2, Option.map_map]
      rfl

theorem lexFrom_behindQuote (s : List α) {c : α} (hc : c ≠ q) (cs : List α) :
    lexFrom q (.behindQuote s) (c :: cs) =
      (lexFrom q .outside (c :: cs)).map (Token.lit s :: ·) := by
  rw [lexFrom, lexFrom, if_neg hc, if_neg hc, Option.map_map]
  rfl

end Reading

/-! ## Pieces that are read again -/

/-- The tokens a reader should find. -/
def Piece.tokens : Piece α → List (Token α)
  | .raw s => s.map .other
  | .quoted s => [.lit s]

/-- The string of a quoted piece. -/
def Piece.string? : Piece α → Option (List α)
  | .raw _ => none
  | .quoted s => some s

/-- The strings of the quoted pieces, in order. -/
def strings (ps : List (Piece α)) : List (List α) := ps.filterMap Piece.string?

@[simp] theorem strings_nil : strings ([] : List (Piece α)) = [] := rfl

@[simp] theorem strings_raw (s : List α) (ps : List (Piece α)) :
    strings (.raw s :: ps) = strings ps := rfl

@[simp] theorem strings_quoted (s : List α) (ps : List (Piece α)) :
    strings (.quoted s :: ps) = s :: strings ps := rfl

@[simp] theorem strings_append (ps qs : List (Piece α)) :
    strings (ps ++ qs) = strings ps ++ strings qs :=
  List.filterMap_append

variable {q : α}

/-- The pieces can be read again: what is not quoted has no quote, and between two
quoted strings there is something. The flag says that a quoted string stands directly
in front of the pieces. -/
def Separated (q : α) : Bool → List (Piece α) → Prop
  | _, [] => True
  | b, .raw s :: ps => q ∉ s ∧ Separated q (b && s.isEmpty) ps
  | b, .quoted _ :: ps => b = false ∧ Separated q true ps

@[simp] theorem separated_nil (b : Bool) : Separated q b [] := trivial

/-- What may stand behind a quoted string may stand anywhere. -/
theorem Separated.anywhere {ps : List (Piece α)} (h : Separated q true ps) (b : Bool) :
    Separated q b ps := by
  induction ps with
  | nil => exact trivial
  | cons p ps ih =>
      cases p with
      | raw s =>
          refine ⟨h.1, ?_⟩
          cases hs : s.isEmpty with
          | false => simpa [Separated, hs] using h.2
          | true => simpa using ih (by simpa [Separated, hs] using h.2)
      | quoted s => exact absurd h.1 (by simp)

/-- Words of the writer without a quote can be put in front, whatever stands before. -/
theorem Separated.raw {s : List α} (hs : q ∉ s) (hne : s ≠ []) {ps : List (Piece α)}
    (h : Separated q false ps) (b : Bool) : Separated q b (.raw s :: ps) := by
  have hempty : s.isEmpty = false := by simpa using hne
  refine ⟨hs, ?_⟩
  rw [hempty, Bool.and_false]
  exact h

theorem Separated.append {ps qs : List (Piece α)} {b : Bool} (hp : Separated q b ps)
    (hq : Separated q true qs) : Separated q b (ps ++ qs) := by
  induction ps generalizing b with
  | nil => exact hq.anywhere b
  | cons p ps ih =>
      cases p with
      | raw s => exact ⟨hp.1, ih hp.2⟩
      | quoted s => exact ⟨hp.1, ih hp.2⟩

theorem lexFrom_render [DecidableEq α] (ps : List (Piece α)) :
    (Separated q false ps →
        lexFrom q .outside (render q ps) = some (ps.flatMap Piece.tokens)) ∧
      ∀ s, Separated q true ps →
        lexFrom q (.behindQuote s) (render q ps) =
          some (Token.lit s :: ps.flatMap Piece.tokens) := by
  induction ps with
  | nil => exact ⟨fun _ => rfl, fun _ _ => rfl⟩
  | cons p ps ih =>
      cases p with
      | quoted t =>
          constructor
          · intro h
            rw [render_cons, Piece.text, lexFrom_quote, ih.2 t h.2]
            rfl
          · exact fun s h => absurd h.1 (by simp)
      | raw t =>
          constructor
          · intro h
            rw [render_cons, Piece.text, lexFrom_raw h.1, ih.1 (by simpa [Separated] using h.2)]
            rfl
          · intro s h
            cases t with
            | nil => exact ih.2 s (by simpa [Separated] using h.2)
            | cons c t =>
                have hc : c ≠ q := fun hcq => h.1 (by simp [hcq])
                rw [render_cons, Piece.text, List.cons_append, lexFrom_behindQuote s hc,
                  ← List.cons_append, lexFrom_raw h.1, ih.1 (by simpa [Separated] using h.2)]
                rfl

theorem lex_render [DecidableEq α] {ps : List (Piece α)} (h : Separated q false ps) :
    lex q (render q ps) = some (ps.flatMap Piece.tokens) :=
  (lexFrom_render ps).1 h

/-- The literals of the tokens are the strings of the quoted pieces. -/
theorem literals_tokens (ps : List (Piece α)) :
    literals (ps.flatMap Piece.tokens) = strings ps := by
  induction ps with
  | nil => rfl
  | cons p ps ih =>
      have hcons : literals ((p :: ps).flatMap Piece.tokens) =
          literals p.tokens ++ literals (ps.flatMap Piece.tokens) := by
        rw [List.flatMap_cons, literals, List.filterMap_append]
        rfl
      rw [hcons, ih]
      cases p with
      | raw s =>
          have hnone : literals (s.map Token.other) = [] := by
            rw [literals, List.filterMap_map]
            exact List.filterMap_eq_nil_iff.2 fun _ _ => rfl
          rw [Piece.tokens, hnone]
          rfl
      | quoted s => rfl

/-! ## Pieces without their strings -/

/-- A piece whose string is left out. -/
def Piece.erase : Piece α → Piece α
  | .raw s => .raw s
  | .quoted _ => .quoted []

theorem kinds_erase (ps : List (Piece α)) :
    ((ps.map Piece.erase).flatMap Piece.tokens).map Token.kind =
      (ps.flatMap Piece.tokens).map Token.kind := by
  induction ps with
  | nil => rfl
  | cons p ps ih =>
      rw [List.map_cons, List.flatMap_cons, List.flatMap_cons, List.map_append, List.map_append, ih]
      cases p <;> rfl

/-- Pieces that differ in their strings only are read as tokens of the same kinds. -/
theorem kinds_eq {ps qs : List (Piece α)} (h : ps.map Piece.erase = qs.map Piece.erase) :
    (ps.flatMap Piece.tokens).map Token.kind = (qs.flatMap Piece.tokens).map Token.kind := by
  rw [← kinds_erase ps, ← kinds_erase qs, h]

end QuotedText
