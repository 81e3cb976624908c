import Webpp.Http.ResponseCookie
import Webpp.Text.TokenizerQuick

/-!
# `Accept-Encoding`

`parse` takes the value apart at its commas and reads entry by entry. It returns at the first
entry that it cannot read and keeps the encodings that it has by then. Every name that is not
known stands for `all`. Qualities are in thousandths.
-/

namespace Webpp.Http

open Loop Webpp.Text Webpp.Text.Tokenizer

/-! ## Encodings -/

inductive EncodingTypes where
  | identity
  | gzip
  | compress
  | deflate
  | br
  | all
  deriving DecidableEq, Repr

/-- `compression_algo_type` -/
structure CompressionAlgo where
  encoding : EncodingTypes
  quality : ℕ := 1000
  deriving DecidableEq, Repr

def toKnownAlgo (str : List Char) : EncodingTypes :=
  match str.head? with
  | none => .all
  | some c =>
      if c = 'G' ∨ c = 'g' then if iequalsSl str ['g', 'z', 'i', 'p'] then .gzip else .all
      else if c = 'B' ∨ c = 'b' then if iequalsSl str ['b', 'r'] then .br else .all
      else if c = 'D' ∨ c = 'd' then
        if iequalsSl str ['d', 'e', 'f', 'l', 'a', 't', 'e'] then .deflate else .all
      else if c = 'C' ∨ c = 'c' then
        if iequalsSl str ['c', 'o', 'm', 'p', 'r', 'e', 's', 's'] then .compress else .all
      else if c = 'x' ∨ c = 'X' then
        if iequalsSl str ['x', '-', 'g', 'z', 'i', 'p'] then .gzip
        else if iequalsSl str ['x', '-', 'c', 'o', 'm', 'p', 'r', 'e', 's', 's'] then .compress
        else .all
      else .all

/-! ## An entry -/

def isLws (c : Char) : Bool := c == ' ' || c == '\t'

def trimLws (str : List Char) : List Char :=
  ((str.dropWhile isLws).reverse.dropWhile isLws).reverse

/-- The loop over the digits of a value, with `d` in thousandths. -/
def addDigits : ℕ → ℕ → List Char → Option ℕ
  | _, qval, [] => some qval
  | d, qval, c :: rest =>
      if isDigit c then addDigits (d / 10) (qval + d * (c.toNat - '0'.toNat)) rest else none

/-- A value, where it is valid. -/
def parseQvalue (qvalue : List Char) : Option ℕ :=
  if qvalue.head? = some '1' then
    if qvalue.isPrefixOf ['1', '.', '0', '0', '0'] then some 1000 else none
  else if qvalue.head? ≠ some '0' then none
  else
    let len := qvalue.length
    if len = 1 then some 0
    else if len ≤ 2 ∨ 5 < len then none
    else if qvalue[1]? ≠ some '.' then none
    else addDigits 100 0 (qvalue.drop 2)

/-- What is in front of the first `c`, and what is behind it, where there is one. -/
def splitAtFirst (c : Char) (str : List Char) : Option (List Char × List Char) :=
  if c ∈ str then some (str.takeWhile (· ≠ c), (str.dropWhile (· ≠ c)).tail) else none

/-- The quality behind the semicolon. -/
def parseParams (params : List Char) : Option ℕ :=
  (splitAtFirst '=' params).bind fun sides =>
    if iequalsSl (trimLws sides.1) ['q'] then parseQvalue (trimLws sides.2) else none

/-- What an entry leads to: the parser returns, or goes on with or without an encoding. -/
inductive EntryResult where
  | invalid
  | skip
  | allow (a : CompressionAlgo)
  deriving DecidableEq, Repr

/-- The body of the loop, on a trimmed token. -/
def parseEntry (entry : List Char) : EntryResult :=
  match splitAtFirst ';' entry with
  | none => if entry.any isLws then .invalid else .allow { encoding := toKnownAlgo entry }
  | some (encoding, params) =>
      let encoding := trimLws encoding
      if encoding.any isLws then .invalid
      else
        match parseParams (trimLws params) with
        | none => .invalid
        | some quality =>
            if quality = 0 then .skip else .allow ⟨toKnownAlgo encoding, quality⟩

/-! ## The whole value -/

/-- `basic_accept_encoding` for the known algorithms -/
structure AcceptEncoding where
  data : List Char
  allowedEncodings : List CompressionAlgo := []
  isValid : Bool := false

/-- `charset(',')` -/
def isComma (c : Char) : Bool := c == ','

/-- A round of the loop over the tokens; the result tells whether all of them are valid. -/
def acceptStep (s : StringTokenizer × List CompressionAlgo) :
    Except Fault (Flow (StringTokenizer × List CompressionAlgo) (Bool × List CompressionAlgo)) := do
  let r ← next .none isComma s.1
  if r.1 then
    match parseEntry (trimLws r.2.token) with
    | .invalid => pure (.done (false, s.2))
    | .skip => pure (.next (r.2, s.2))
    | .allow a => pure (.next (r.2, s.2 ++ [a]))
  else pure (.done (true, s.2))

namespace AcceptEncoding

def parse (p : AcceptEncoding) : Except Fault AcceptEncoding :=
  if '"' ∈ p.data then pure { p with isValid := false }
  else do
    let r ← loop acceptStep .exhausted (p.data.length + 1) (StringTokenizer.ofString p.data, [])
    if r.1 then
      if r.2 = [] then pure { p with allowedEncodings := [{ encoding := .all }], isValid := true }
      else
        pure { p with allowedEncodings := r.2 ++ [{ encoding := .identity }], isValid := true }
    else pure { p with allowedEncodings := r.2, isValid := false }

/-- `get<Type>` -/
def get (type : EncodingTypes) (p : AcceptEncoding) : Option CompressionAlgo :=
  p.allowedEncodings.find? fun item => item.encoding = type

/-- `is_allowed<Type>` -/
def isAllowed (type : EncodingTypes) (p : AcceptEncoding) : Bool := (get type p).isSome

theorem isAllowed_iff {type : EncodingTypes} {p : AcceptEncoding} :
    p.isAllowed type = true ↔ ∃ a ∈ p.allowedEncodings, a.encoding = type := by
  rw [isAllowed, get, List.find?_isSome]
  simp only [decide_eq_true_eq]

end AcceptEncoding

/-! ## The loop -/

/-- The parts of the value that are not empty. -/
def pieces (data : List Char) : List (List Char) := nonEmpty (data.splitOn ',')

/-- The loop, over the pieces. -/
def readPieces : List (List Char) → List CompressionAlgo → Bool × List CompressionAlgo
  | [], found => (true, found)
  | piece :: rest, found =>
      match parseEntry (trimLws piece) with
      | .invalid => (false, found)
      | .skip => readPieces rest found
      | .allow a => readPieces rest (found ++ [a])

theorem pieces_comma (text : List Char) : pieces (',' :: text) = pieces text := by
  rw [pieces, List.splitOn_cons_eq_if_modifyHead, if_pos (beq_self_eq_true _)]
  rfl

theorem pieces_dropWhile (text : List Char) :
    pieces (text.dropWhile isComma) = pieces text := by
  induction text with
  | nil => rfl
  | cons c text ih =>
      by_cases hc : isComma c = true
      · rw [List.dropWhile_cons_of_pos hc, ih, eq_of_beq hc, pieces_comma]
      · rw [List.dropWhile_cons_of_neg hc]

theorem pieces_cons {c : Char} (hc : c ≠ ',') (text : List Char) :
    pieces (c :: text) = (c :: text.takeWhile (fun c => !isComma c)) ::
      pieces (text.dropWhile (fun c => !isComma c)) := by
  have hword : ',' ∉ c :: text.takeWhile (fun c => !isComma c) := by
    intro hmem
    rcases List.mem_cons.mp hmem with h | h
    · exact hc h.symm
    · exact absurd (List.mem_takeWhile_imp h) (by decide)
  have htext : c :: text = (c :: text.takeWhile (fun c => !isComma c)) ++
      text.dropWhile (fun c => !isComma c) := by
    rw [List.cons_append, List.takeWhile_append_dropWhile]
  conv => lhs; rw [htext]
  cases hrest : text.dropWhile (fun c => !isComma c) with
  | nil =>
      rw [List.append_nil, pieces, List.splitOn_eq_singleton hword]
      rfl
  | cons d rest =>
      have hd : d = ',' := by
        have hhead := List.head?_dropWhile_not (fun c => !isComma c) text
        rw [hrest] at hhead
        simpa [isComma] using hhead
      rw [hd, pieces_comma, pieces, List.splitOn_append_cons_self_of_not_mem hword]
      rfl

theorem loop_acceptStep {n : ℕ} {text : List Char} (hn : text.length < n) (before : List Char)
    (isDelim : Bool) (found : List CompressionAlgo) :
    loop acceptStep .exhausted n (⟨before, text, isDelim⟩, found) =
      .ok (readPieces (pieces text) found) := by
  induction n generalizing text before isDelim found with
  | zero => exact absurd hn (Nat.not_lt_zero _)
  | succ n ih =>
      cases htext : text.dropWhile isComma with
      | nil =>
          have hdone : acceptStep (⟨before, text, isDelim⟩, found) = .ok (.done (true, found)) := by
            rw [acceptStep, next, if_pos rfl, quickNext, htext]
            rfl
          rw [loop_of_done hdone, ← pieces_dropWhile, htext]
          rfl
      | cons c rest =>
          have hc : c ≠ ',' := by
            have hhead := List.head?_dropWhile_not isComma text
            rw [htext] at hhead
            simpa [isComma] using hhead
          have hlt : (rest.dropWhile (fun c => !isComma c)).length < n := by
            have hle := (List.dropWhile_suffix (l := rest) (fun c => !isComma c)).length_le
            have hle' := (List.dropWhile_suffix (l := text) isComma).length_le
            rw [htext, List.length_cons] at hle'
            omega
          have htoken : (⟨c :: rest, rest.dropWhile (fun c => !isComma c), false⟩ :
              StringTokenizer).token = c :: rest.takeWhile (fun c => !isComma c) :=
            StringTokenizer.token_eq
              (by rw [List.cons_append, List.takeWhile_append_dropWhile])
          have hnext : next .none isComma ⟨before, text, isDelim⟩ =
              .ok (true, ⟨c :: rest, rest.dropWhile (fun c => !isComma c), false⟩) := by
            rw [next, if_pos rfl, quickNext, htext]
          rw [← pieces_dropWhile, htext, pieces_cons hc, readPieces, loop, acceptStep, hnext]
          simp only [bind, Except.bind, if_true, htoken]
          cases parseEntry (trimLws (c :: rest.takeWhile (fun c => !isComma c))) with
          | invalid => rfl
          | skip => exact ih hlt _ _ _
          | allow a => exact ih hlt _ _ _

/-- What `parse` makes of a value without quotes. -/
theorem AcceptEncoding.parse_eq {p : AcceptEncoding} (hquote : '"' ∉ p.data) :
    p.parse = .ok (if (readPieces (pieces p.data) []).1 then
      { p with
        allowedEncodings := if (readPieces (pieces p.data) []).2 = [] then
            [{ encoding := .all }]
          else (readPieces (pieces p.data) []).2 ++ [{ encoding := .identity }]
        isValid := true }
      else { p with allowedEncodings := (readPieces (pieces p.data) []).2, isValid := false }) := by
  rw [parse, if_neg hquote, StringTokenizer.ofString,
    loop_acceptStep (Nat.lt_succ_self _)]
  simp only [bind, Except.bind]
  split
  · split
    · rfl
    · rfl
  · rfl

end Webpp.Http
