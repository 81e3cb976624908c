import Mathlib.Data.List.TakeWhile
import Mathlib.Logic.Function.Basic
import Webpp.Foundation.Loop
import Webpp.Uri.Encoding

/-!
# `extract_queries_to`

A round looks for both separators in all of the text that is left, so that the `=` it finds may be
one of a later piece, and it takes the place of the `&` for the length of the value.
-/

namespace Webpp.Uri.ExtractQueries

open Encoding Function Loop PercentCode

abbrev Map := List UInt8 → Option (List UInt8)

def amp : UInt8 := '&'.toUInt8

def equals : UInt8 := '='.toUInt8

def queryOrFragmentNotPctEncoded (c : UInt8) : Bool :=
  'a'.toUInt8 ≤ c && c ≤ 'z'.toUInt8 || 'A'.toUInt8 ≤ c && c ≤ 'Z'.toUInt8 ||
    '0'.toUInt8 ≤ c && c ≤ '9'.toUInt8 ||
    ("-._~!$&'()*+,;=:@/?".toList.map Char.toUInt8).contains c

/-- `find`, with `none` for `npos` -/
def find (c : UInt8) (query : List UInt8) : Option ℕ := query.findIdx? (· == c)

def substr (query : List UInt8) (pos : ℕ) : Option ℕ → List UInt8
  | none => query.drop pos
  | some count => (query.drop pos).take count

/-- `min(eq_sep, and_sep)` -/
def minSep : Option ℕ → Option ℕ → Option ℕ
  | some eqSep, some andSep => some (min eqSep andSep)
  | some eqSep, none => some eqSep
  | none, andSep => andSep

/-- `max(eq_sep, and_sep) + 1`, which is 0 behind `npos` -/
def afterSeps : Option ℕ → Option ℕ → ℕ
  | some eqSep, some andSep => max eqSep andSep + 1
  | _, _ => 0

/-- The name that a round finds. -/
def name (query : List UInt8) : List UInt8 :=
  substr query 0 (minSep (find equals query) (find amp query))

/-- The value that a round finds. -/
def value (query : List UInt8) : Option (List UInt8) :=
  (find equals query).map fun eqSep => substr query (eqSep + 1) (find amp query)

/-- A text as it is decoded, or as it stands. -/
def readWith (decode : List UInt8 → Option (List UInt8)) (text : List UInt8) : List UInt8 :=
  (decode text).getD text

/-- `decode_uri_component` as it is called here -/
def decodeText (text : List UInt8) : Option (List UInt8) :=
  (Encoding.decodeUriComponent .skipChars queryOrFragmentNotPctEncoded text).result

def dValue (query : List UInt8) : List UInt8 :=
  match value query with
  | some text => readWith decodeText text
  | none => []

/-- `_query` and `q_structured` -/
structure State where
  query : List UInt8
  structured : Map

/-- A round of `extract_queries_to` -/
def extractStep (s : State) : Except Unit (Flow State Map) :=
  if s.query = [] then .ok (.done s.structured)
  else
    let andSep := find amp s.query
    let eqSep := find equals s.query
    if name s.query = [] then
      .ok (.next { s with query := s.query.drop (afterSeps eqSep andSep) })
    else
      let dName := readWith decodeText (name s.query)
      let structured :=
        if dName = [] then s.structured else update s.structured dName (some (dValue s.query))
      match andSep with
      | some andSep => .ok (.next ⟨s.query.drop (andSep + 1), structured⟩)
      | none => .ok (.done structured)

/-! ## What the map should be -/

def fieldName (field : List UInt8) : List UInt8 := field.takeWhile (· ≠ equals)

def fieldValue (field : List UInt8) : List UInt8 := (field.dropWhile (· ≠ equals)).tail

def percentText (text : List UInt8) : Option (List UInt8) :=
  percentDecoded .skipChars queryOrFragmentNotPctEncoded text

/-- A field with a name is put into the map. -/
def put (decode : List UInt8 → Option (List UInt8)) (map : Map) (field : List UInt8) : Map :=
  if fieldName field = [] then map
  else update map (readWith decode (fieldName field)) (some (readWith decode (fieldValue field)))

def putAll (decode : List UInt8 → Option (List UInt8)) (map : Map) (fields : List (List UInt8)) :
    Map :=
  fields.foldl (put decode) map

/-- The loop ends, and the map has been given the fields of the text. -/
def FillsMap (text : List UInt8) : Prop :=
  ∀ map, ∃ n, loop extractStep () n ⟨text, map⟩ =
    .ok (putAll percentText map (text.splitOn amp))

/-- The value that is taken from the text in a round ends before the next `&`. -/
def ValueInside (query : List UInt8) : Prop :=
  name query ≠ [] → ∀ eqSep text, find equals query = some eqSep → value query = some text →
    text = [] ∨ eqSep + 1 + text.length ≤ (query.takeWhile (· ≠ amp)).length

/-- All rounds take values of one field. -/
def ValuesInside (text : List UInt8) : Prop :=
  ∀ map s, Reaches extractStep ⟨text, map⟩ s → ValueInside s.query

/-- What is expected of the queries. -/
structure ExtractsRight (text : List UInt8) : Prop where
  fills : FillsMap text
  inside : ValuesInside text

/-! ## The separators -/

section Separators

variable {c : UInt8} {front rest query : List UInt8}

theorem find_append (h : c ∉ front) (rest : List UInt8) :
    find c (front ++ c :: rest) = some front.length := by
  induction front with
  | nil => simp [find, List.findIdx?_cons]
  | cons d front ih =>
      rw [List.mem_cons, not_or] at h
      have hd : (d == c) = false := beq_eq_false_iff_ne.2 (Ne.symm h.1)
      rw [find] at ih ⊢
      rw [List.cons_append, List.findIdx?_cons, hd, ih h.2]
      rfl

theorem find_of_not_mem (h : c ∉ query) : find c query = none := by
  rw [find, List.findIdx?_eq_none_iff]
  intro d hd
  exact beq_eq_false_iff_ne.2 fun heq => h (heq ▸ hd)

theorem decide_ne_of_mem (h : c ∉ front) : ∀ d ∈ front, decide (d ≠ c) = true := by
  intro d hd
  exact decide_eq_true fun heq => h (heq ▸ hd)

theorem takeWhile_append (h : c ∉ front) (rest : List UInt8) :
    (front ++ c :: rest).takeWhile (· ≠ c) = front := by
  rw [List.takeWhile_append_of_pos (decide_ne_of_mem h)]
  simp

theorem takeWhile_of_not_mem (h : c ∉ front) : front.takeWhile (· ≠ c) = front :=
  List.takeWhile_eq_self_iff.2 (decide_ne_of_mem h)

theorem fieldName_append (h : equals ∉ front) (rest : List UInt8) :
    fieldName (front ++ equals :: rest) = front := takeWhile_append h rest

theorem fieldName_of_not_mem (h : equals ∉ front) : fieldName front = front :=
  takeWhile_of_not_mem h

theorem fieldValue_append (h : equals ∉ front) (rest : List UInt8) :
    fieldValue (front ++ equals :: rest) = rest := by
  rw [fieldValue, List.dropWhile_append_of_pos (decide_ne_of_mem h)]
  simp

theorem fieldValue_of_not_mem (h : equals ∉ front) : fieldValue front = [] := by
  rw [fieldValue, List.dropWhile_eq_nil_iff.2 (decide_ne_of_mem h)]
  rfl

end Separators

/-! ## The decoded texts -/

theorem pieces_ne_nil {text : List UInt8} (h : text ≠ []) : pieces percentSign text ≠ [] := by
  induction text using pieces_induction percentSign with
  | nil => exact absurd rfl h
  | plain c text hc ih =>
      rw [pieces_plain hc]
      exact List.cons_ne_nil _ _
  | escape c1 c2 rest ih =>
      rw [pieces_escape]
      exact List.cons_ne_nil _ _
  | cut rest hrest =>
      rw [pieces_cut hrest]
      exact List.cons_ne_nil _ _

theorem readWith_decodeText_ne_nil {text : List UInt8} (h : text ≠ []) :
    readWith decodeText text ≠ [] := by
  rw [readWith]
  cases hdecode : decodeText text with
  | none => exact h
  | some out =>
      rw [decodeText, decodeUriComponent_result] at hdecode
      obtain ⟨p, ps, hpieces⟩ := List.exists_cons_of_ne_nil (pieces_ne_nil h)
      rw [hpieces] at hdecode
      obtain ⟨b, bs, -, -, hout⟩ := mapM_cons_eq_some hdecode
      rw [hout]
      exact List.cons_ne_nil b bs

/-! ## The rounds -/

section Rounds

variable {map : Map} {front rest query : List UInt8}

theorem extractStep_nil : extractStep ⟨[], map⟩ = .ok (.done map) := rfl

theorem ne_nil_of_name (h : name query ≠ []) : query ≠ [] := by
  rintro rfl
  exact h rfl

theorem extractStep_skip (hquery : query ≠ []) (hname : name query = []) :
    extractStep ⟨query, map⟩ =
      .ok (.next ⟨query.drop (afterSeps (find equals query) (find amp query)), map⟩) := by
  rw [extractStep, if_neg hquery, if_pos hname]

/-- With a name and without a `&` the round is the last one. -/
theorem extractStep_done (hname : name query ≠ []) (hamp : find amp query = none) :
    extractStep ⟨query, map⟩ =
      .ok (.done (update map (readWith decodeText (name query)) (some (dValue query)))) := by
  simp only [extractStep, if_neg (ne_nil_of_name hname), if_neg hname, hamp,
    if_neg (readWith_decodeText_ne_nil hname)]

theorem extractStep_next (hname : name query ≠ []) {andSep : ℕ}
    (hamp : find amp query = some andSep) :
    extractStep ⟨query, map⟩ = .ok (.next ⟨query.drop (andSep + 1),
      update map (readWith decodeText (name query)) (some (dValue query))⟩) := by
  simp only [extractStep, if_neg (ne_nil_of_name hname), if_neg hname, hamp,
    if_neg (readWith_decodeText_ne_nil hname)]

theorem find_skip {c : UInt8} (h : c ∉ front) (rest : List UInt8) :
    find c (front ++ rest) = (find c rest).map (· + front.length) := by
  have hfront := find_of_not_mem h
  rw [find] at hfront
  rw [find, List.findIdx?_append, hfront]
  rfl

/-! ### The last piece -/

theorem name_last (hamp : amp ∉ query) : name query = fieldName query := by
  rw [name, find_of_not_mem hamp]
  by_cases heq : equals ∈ query
  · obtain ⟨front, rest, rfl, hfront⟩ := List.eq_append_cons_of_mem heq
    rw [find_append hfront, fieldName_append hfront]
    simp [minSep, substr]
  · rw [find_of_not_mem heq, fieldName_of_not_mem heq]
    simp [minSep, substr]

theorem dValue_last (hamp : amp ∉ query) :
    dValue query = readWith decodeText (fieldValue query) := by
  rw [dValue, value, find_of_not_mem hamp]
  by_cases heq : equals ∈ query
  · obtain ⟨front, rest, rfl, hfront⟩ := List.eq_append_cons_of_mem heq
    rw [find_append hfront, fieldValue_append hfront, ← List.singleton_append,
      ← List.append_assoc]
    simp [substr]
  · rw [find_of_not_mem heq, fieldValue_of_not_mem heq]
    rfl

theorem round_last (hname : fieldName query ≠ []) (hamp : amp ∉ query) :
    extractStep ⟨query, map⟩ = .ok (.done (put decodeText map query)) := by
  have hname' : name query ≠ [] := by rwa [name_last hamp]
  rw [extractStep_done hname' (find_of_not_mem hamp), name_last hamp, dValue_last hamp, put,
    if_neg hname]

theorem valueInside_last (hamp : amp ∉ query) : ValueInside query := by
  intro _ eqSep text hsep htext
  refine .inr ?_
  rw [value, hsep, find_of_not_mem hamp] at htext
  cases htext
  have hlt : eqSep < query.length := (List.findIdx?_eq_some_iff_findIdx_eq.1 hsep).1
  rw [takeWhile_of_not_mem hamp]
  simp only [substr, List.length_drop]
  omega

/-! ### A name and the pieces behind it -/

/-- The first `=` stands at the end, or there is none. -/
def EqualsAtEnd (rest : List UInt8) : Prop :=
  ∀ front back, equals ∉ front → rest = front ++ equals :: back → back = []

theorem find_equals (heq : equals ∉ front) (rest : List UInt8) :
    find equals (front ++ amp :: rest) =
      (find equals rest).map (· + (front.length + 1)) := by
  have hfront : equals ∉ front ++ [amp] := by
    rw [List.mem_append, List.mem_singleton, not_or]
    exact ⟨heq, by decide⟩
  have hskip := find_skip hfront rest
  rw [List.append_assoc, List.singleton_append, List.length_append, List.length_singleton]
    at hskip
  exact hskip

theorem name_append (hamp : amp ∉ front) (heq : equals ∉ front) (rest : List UInt8) :
    name (front ++ amp :: rest) = front := by
  rw [name, find_append hamp, find_equals heq]
  cases find equals rest with
  | none => simp [minSep, substr]
  | some eqSep =>
      have hmin : min (eqSep + (front.length + 1)) front.length = front.length := by omega
      simp [minSep, substr, hmin]

theorem value_append (hamp : amp ∉ front) (heq : equals ∉ front) (hrest : EqualsAtEnd rest) :
    value (front ++ amp :: rest) = none ∨ value (front ++ amp :: rest) = some [] := by
  rw [value, find_equals heq]
  by_cases hmem : equals ∈ rest
  · obtain ⟨middle, back, rfl, hmiddle⟩ := List.eq_append_cons_of_mem hmem
    obtain rfl := hrest middle back hmiddle rfl
    have hdrop : (front ++ amp :: (middle ++ [equals])).drop
        (middle.length + (front.length + 1) + 1) = [] := by
      refine List.drop_of_length_le ?_
      simp only [List.length_append, List.length_cons, List.length_nil]
      omega
    rw [find_append hmiddle, find_append hamp]
    refine .inr ?_
    rw [Option.map_some, Option.map_some, substr, hdrop, List.take_nil]
  · rw [find_of_not_mem hmem]
    exact .inl rfl

theorem dValue_append (hamp : amp ∉ front) (heq : equals ∉ front) (hrest : EqualsAtEnd rest) :
    dValue (front ++ amp :: rest) = [] := by
  rw [dValue]
  rcases value_append hamp heq hrest with h | h
  · rw [h]
  · rw [h]
    rfl

theorem round_name (hfront : front ≠ []) (hamp : amp ∉ front) (heq : equals ∉ front)
    (hrest : EqualsAtEnd rest) :
    extractStep ⟨front ++ amp :: rest, map⟩ = .ok (.next ⟨rest, put decodeText map front⟩) := by
  have hname := name_append hamp heq rest
  have hdrop : (front ++ amp :: rest).drop (front.length + 1) = rest := by simp
  rw [extractStep_next (by rwa [hname]) (find_append hamp rest), hname,
    dValue_append hamp heq hrest, hdrop, put, fieldName_of_not_mem heq,
    fieldValue_of_not_mem heq, if_neg hfront]
  rfl

theorem valueInside_name (hamp : amp ∉ front) (heq : equals ∉ front)
    (hrest : EqualsAtEnd rest) : ValueInside (front ++ amp :: rest) := by
  intro _ eqSep text _ htext
  refine .inl ?_
  rcases value_append hamp heq hrest with h | h
  · rw [h] at htext
    cases htext
  · rw [h] at htext
    cases htext
    rfl

/-- The `=` of a later piece gives the name a value of that piece. -/
theorem not_valueInside_later (hfront : front ≠ []) (hamp : amp ∉ front) (heq : equals ∉ front)
    {middle : List UInt8} (hmiddle : equals ∉ middle) (c : UInt8) (back : List UInt8) :
    ¬ ValueInside (front ++ amp :: (middle ++ equals :: c :: back)) := by
  intro h
  have hpos := List.length_pos_of_ne_nil hfront
  have hsep : find equals (front ++ amp :: (middle ++ equals :: c :: back)) =
      some (middle.length + (front.length + 1)) := by
    rw [find_equals heq, find_append hmiddle]
    rfl
  have hvalue : value (front ++ amp :: (middle ++ equals :: c :: back)) = some
      (((front ++ amp :: (middle ++ equals :: c :: back)).drop
        (middle.length + (front.length + 1) + 1)).take front.length) := by
    rw [value, hsep, find_append hamp]
    rfl
  rcases h (by rwa [name_append hamp heq]) _ _ hsep hvalue with hnil | hle
  · have hlength := congrArg List.length hnil
    simp only [List.length_take, List.length_drop, List.length_append, List.length_cons,
      List.length_nil] at hlength
    omega
  · rw [takeWhile_append hamp] at hle
    omega

theorem not_valueInside_value (hfront : front ≠ []) (hamp : amp ∉ front) (heq : equals ∉ front)
    {middle : List UInt8} (hmiddle : amp ∉ middle) (back : List UInt8) :
    ¬ ValueInside (front ++ equals :: (middle ++ amp :: back)) := by
  intro h
  have hsep := find_append heq (middle ++ amp :: back)
  have hfield : amp ∉ front ++ equals :: middle := by
    rw [List.mem_append, List.mem_cons, not_or, not_or]
    exact ⟨hamp, by decide, hmiddle⟩
  have hsplit : front ++ equals :: (middle ++ amp :: back) =
      (front ++ equals :: middle) ++ amp :: back := by simp
  have hand : find amp (front ++ equals :: (middle ++ amp :: back)) =
      some (front ++ equals :: middle).length := by rw [hsplit, find_append hfield]
  have hname : name (front ++ equals :: (middle ++ amp :: back)) = front := by
    rw [name, hsep, hand]
    simp [minSep, substr]
  have hvalue : value (front ++ equals :: (middle ++ amp :: back)) = some
      ((middle ++ amp :: back).take (front.length + (middle.length + 1))) := by
    rw [value, hsep, hand]
    simp [substr]
  rcases h (by rwa [hname]) _ _ hsep hvalue with hnil | hle
  · have hlength := congrArg List.length hnil
    simp only [List.length_take, List.length_append, List.length_cons, List.length_nil] at hlength
    omega
  · rw [hsplit, takeWhile_append hfield] at hle
    simp only [List.length_take, List.length_append, List.length_cons] at hle
    omega

/-! ### Pieces without a name -/

theorem find_cons_self (c : UInt8) (query : List UInt8) : find c (c :: query) = some 0 := by
  simp [find, List.findIdx?_cons]

theorem find_cons {c d : UInt8} (h : c ≠ d) (query : List UInt8) :
    find c (d :: query) = (find c query).map (· + 1) := by
  have hfront : c ∉ [d] := fun hmem => h (List.mem_singleton.1 hmem)
  exact find_skip hfront query

theorem name_equals (query : List UInt8) : name (equals :: query) = [] := by
  rw [name, find_cons_self]
  cases find amp (equals :: query) <;> simp [minSep, substr]

theorem name_amp (query : List UInt8) : name (amp :: query) = [] := by
  rw [name, find_cons_self]
  cases find equals (amp :: query) <;> simp [minSep, substr]

theorem valueInside_of_name_eq_nil (h : name query = []) : ValueInside query :=
  fun hname => absurd h hname

/-- A value without a name is skipped. -/
theorem round_unnamed (hamp : amp ∉ front) (rest : List UInt8) :
    extractStep ⟨equals :: (front ++ amp :: rest), map⟩ = .ok (.next ⟨rest, map⟩) := by
  rw [extractStep_skip (List.cons_ne_nil _ _) (name_equals _), find_cons_self,
    find_cons (by decide), find_append hamp]
  simp [afterSeps]

/-- From an empty piece on, the text is skipped up to the next `=`. -/
theorem round_emptyPiece (heq : equals ∉ front) (rest : List UInt8) :
    extractStep ⟨amp :: (front ++ equals :: rest), map⟩ = .ok (.next ⟨rest, map⟩) := by
  rw [extractStep_skip (List.cons_ne_nil _ _) (name_amp _), find_cons_self,
    find_cons (by decide), find_append heq]
  simp [afterSeps]

theorem round_equals_stuck (hamp : amp ∉ front) :
    extractStep ⟨equals :: front, map⟩ = .ok (.next ⟨equals :: front, map⟩) := by
  rw [extractStep_skip (List.cons_ne_nil _ _) (name_equals _), find_cons_self,
    find_cons (by decide), find_of_not_mem hamp]
  rfl

theorem round_amp_stuck (heq : equals ∉ front) :
    extractStep ⟨amp :: front, map⟩ = .ok (.next ⟨amp :: front, map⟩) := by
  rw [extractStep_skip (List.cons_ne_nil _ _) (name_amp _), find_cons_self,
    find_cons (by decide), find_of_not_mem heq]
  rfl

end Rounds

/-! ## The fields that are read -/

/-- The loop goes through the text and takes these fields as they are in it. A text that begins
with a `&` or a `=` loses what is before the later one of the next two separators. -/
inductive Keeps : List UInt8 → List (List UInt8) → Prop
  | nil : Keeps [] []
  | last {field : List UInt8} (hname : fieldName field ≠ []) (hamp : amp ∉ field) :
      Keeps field [field]
  | name {field rest : List UInt8} {fields : List (List UInt8)} (hfield : field ≠ [])
      (hamp : amp ∉ field) (heq : equals ∉ field) (hrest : EqualsAtEnd rest)
      (h : Keeps rest fields) : Keeps (field ++ amp :: rest) (field :: fields)
  | unnamed {skipped rest : List UInt8} {fields : List (List UInt8)} (hamp : amp ∉ skipped)
      (h : Keeps rest fields) : Keeps (equals :: (skipped ++ amp :: rest)) fields
  | emptyPiece {skipped rest : List UInt8} {fields : List (List UInt8)} (heq : equals ∉ skipped)
      (h : Keeps rest fields) : Keeps (amp :: (skipped ++ equals :: rest)) fields

section Runs

variable {map : Map} {text : List UInt8} {fields : List (List UInt8)}

theorem Keeps.run (h : Keeps text fields) (map : Map) :
    ∃ n, loop extractStep () n ⟨text, map⟩ = .ok (putAll decodeText map fields) := by
  induction h generalizing map with
  | nil => exact ⟨1, loop_of_done extractStep_nil 0⟩
  | last hname hamp => exact ⟨1, loop_of_done (round_last hname hamp) 0⟩
  | name hfield hamp heq hrest h ih =>
      obtain ⟨n, hn⟩ := ih (put decodeText map _)
      exact ⟨n + 1, (loop_of_next (round_name hfield hamp heq hrest) n).trans hn⟩
  | unnamed hamp h ih =>
      obtain ⟨n, hn⟩ := ih map
      exact ⟨n + 1, (loop_of_next (round_unnamed hamp _) n).trans hn⟩
  | emptyPiece heq h ih =>
      obtain ⟨n, hn⟩ := ih map
      exact ⟨n + 1, (loop_of_next (round_emptyPiece heq _) n).trans hn⟩

theorem inside_of_next {s s' s₁ : State} (hstep : extractStep s = .ok (.next s'))
    (hs : ValueInside s.query) (h : Reaches extractStep s' s₁ → ValueInside s₁.query)
    (hreach : Reaches extractStep s s₁) : ValueInside s₁.query := by
  rcases hreach.head with rfl | ⟨s₂, hfirst, hrest⟩
  · exact hs
  · rw [hstep] at hfirst
    cases hfirst
    exact h hrest

theorem Keeps.inside (h : Keeps text fields) (map : Map) {s : State}
    (hreach : Reaches extractStep ⟨text, map⟩ s) : ValueInside s.query := by
  induction h generalizing map with
  | nil =>
      rcases hreach.head with rfl | ⟨s₁, hfirst, -⟩
      · exact valueInside_of_name_eq_nil rfl
      · rw [extractStep_nil] at hfirst
        cases hfirst
  | last hname hamp =>
      rcases hreach.head with rfl | ⟨s₁, hfirst, -⟩
      · exact valueInside_last hamp
      · rw [round_last hname hamp] at hfirst
        cases hfirst
  | name hfield hamp heq hrest h ih =>
      exact inside_of_next (round_name hfield hamp heq hrest) (valueInside_name hamp heq hrest)
        (ih _) hreach
  | unnamed hamp h ih =>
      exact inside_of_next (round_unnamed hamp _) (valueInside_of_name_eq_nil (name_equals _))
        (ih _) hreach
  | emptyPiece heq h ih =>
      exact inside_of_next (round_emptyPiece heq _) (valueInside_of_name_eq_nil (name_amp _))
        (ih _) hreach

theorem reaches_of_next {s s' s₁ : State} (hstep : extractStep s = .ok (.next s'))
    (h : Reaches extractStep s' s₁) : Reaches extractStep s s₁ := by
  induction h with
  | refl => exact .next .refl hstep
  | next hreach hround ih => exact ih.next hround

/-- A run that ends and takes values of one field only is one of `Keeps`. -/
theorem exists_keeps {n : ℕ} {result : Map}
    (hrun : loop extractStep () n ⟨text, map⟩ = .ok result)
    (hinside : ∀ s, Reaches extractStep ⟨text, map⟩ s → ValueInside s.query) :
    ∃ fields, Keeps text fields := by
  induction n generalizing text map with
  | zero => cases hrun
  | succ n ih =>
      -- what is asked of the rest, if the round leads on to it
      have hrest : ∀ {s'}, extractStep ⟨text, map⟩ = .ok (.next s') →
          ∃ fields, Keeps s'.query fields := by
        intro s' hstep
        rw [loop_of_next hstep] at hrun
        exact ih hrun fun s hs => hinside s (reaches_of_next hstep hs)
      have hstuck : extractStep ⟨text, map⟩ ≠ .ok (.next ⟨text, map⟩) := by
        intro hstep
        rw [loop_of_next_self hstep] at hrun
        cases hrun
      have hfirst : ValueInside text := hinside _ .refl
      by_cases hamp : amp ∈ text
      · obtain ⟨field, rest, rfl, hfield⟩ := List.eq_append_cons_of_mem hamp
        by_cases heq : equals ∈ field
        · obtain ⟨front, middle, rfl, hfront⟩ := List.eq_append_cons_of_mem heq
          rw [List.mem_append, List.mem_cons, not_or, not_or] at hfield
          obtain ⟨hampFront, -, hmiddle⟩ := hfield
          rw [List.append_assoc, List.cons_append] at *
          cases front with
          | nil =>
              obtain ⟨fields, hkeeps⟩ := hrest (round_unnamed hmiddle rest)
              exact ⟨fields, .unnamed hmiddle hkeeps⟩
          | cons c front =>
              exact absurd hfirst
                (not_valueInside_value (List.cons_ne_nil c front) hampFront hfront hmiddle rest)
        · cases field with
          | nil =>
              by_cases hlater : equals ∈ rest
              · obtain ⟨front, back, rfl, hfront⟩ := List.eq_append_cons_of_mem hlater
                obtain ⟨fields, hkeeps⟩ := hrest (round_emptyPiece hfront back)
                exact ⟨fields, .emptyPiece hfront hkeeps⟩
              · exact absurd (round_amp_stuck hlater) hstuck
          | cons c field =>
              have hend : EqualsAtEnd rest := by
                rintro front (_ | ⟨d, back⟩) hfront rfl
                · rfl
                · exact absurd hfirst (not_valueInside_later (List.cons_ne_nil c field) hfield heq
                    hfront d back)
              obtain ⟨fields, hkeeps⟩ :=
                hrest (round_name (List.cons_ne_nil c field) hfield heq hend)
              exact ⟨_, .name (List.cons_ne_nil c field) hfield heq hend hkeeps⟩
      · by_cases hname : fieldName text = []
        · cases text with
          | nil => exact ⟨[], .nil⟩
          | cons c text =>
              obtain rfl : c = equals := by
                by_contra hc
                simp [fieldName, hc] at hname
              rw [List.mem_cons, not_or] at hamp
              exact absurd (round_equals_stuck hamp.2) hstuck
        · exact ⟨[text], .last hname hamp⟩

/-! ## When the map is right -/

theorem putAll_apply (decode : List UInt8 → Option (List UInt8)) (map : Map)
    (fields : List (List UInt8)) (key : List UInt8) :
    putAll decode map fields key = (putAll decode (fun _ => none) fields key).or (map key) := by
  induction fields generalizing map with
  | nil => rfl
  | cons field fields ih =>
      have hput : put decode map field key =
          (put decode (fun _ => none) field key).or (map key) := by
        rw [put, put]
        by_cases hname : fieldName field = []
        · rw [if_pos hname, if_pos hname, Option.none_or]
        · rw [if_neg hname, if_neg hname, update_apply, update_apply]
          split_ifs
          · rw [Option.some_or]
          · rw [Option.none_or]
      have hcons : ∀ m, putAll decode m (field :: fields) key =
          putAll decode (put decode m field) fields key := fun _ => rfl
      rw [hcons, hcons, ih, ih (put decode _ field), hput, Option.or_assoc]

/-- The value of a name among the fields, which is the one of the last field with this name. -/
def lookup (decode : List UInt8 → Option (List UInt8)) (fields : List (List UInt8))
    (key : List UInt8) : Option (List UInt8) :=
  putAll decode (fun _ => none) fields key

/-- The queries are extracted as they should be if and only if the text is one of `Keeps`, and
what it loses makes no difference to any name. -/
theorem extractsRight_iff (text : List UInt8) : ExtractsRight text ↔
    ∃ fields, Keeps text fields ∧
      ∀ key, lookup decodeText fields key = lookup percentText (text.splitOn amp) key := by
  constructor
  · intro h
    obtain ⟨n, hn⟩ := h.fills fun _ => none
    obtain ⟨fields, hkeeps⟩ := exists_keeps hn fun s hs => h.inside _ s hs
    obtain ⟨m, hm⟩ := hkeeps.run fun _ => none
    exact ⟨fields, hkeeps, fun key => congrFun (loop_unique hm hn) key⟩
  · rintro ⟨fields, hkeeps, hlookup⟩
    refine ⟨fun map => ?_, fun map s hs => hkeeps.inside map hs⟩
    obtain ⟨n, hn⟩ := hkeeps.run map
    refine ⟨n, hn.trans (congrArg Except.ok (funext fun key => ?_))⟩
    have hkey := hlookup key
    rw [lookup, lookup] at hkey
    rw [putAll_apply, putAll_apply percentText, hkey]

/-- `a=1&b=2`: the value of `a` is `1&b`. -/
theorem not_extractsRight : ¬ ∀ text, ExtractsRight text := by
  intro h
  have hinside := (h ("a=1&b=2".toList.map Char.toUInt8)).inside (fun _ => none) _ .refl
  have hfront : amp ∉ ['a'.toUInt8] := by decide
  have hmiddle : amp ∉ ['1'.toUInt8] := by decide
  exact not_valueInside_value (List.cons_ne_nil _ _) hfront (by decide) hmiddle
    ("b=2".toList.map Char.toUInt8) hinside

end Runs

end Webpp.Uri.ExtractQueries
