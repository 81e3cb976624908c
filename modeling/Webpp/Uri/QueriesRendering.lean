import Webpp.Uri.QueriesMap
import Webpp.Uri.Growth

/-!
# Rendering queries

`render_queries` writes the pairs of a map as a text. What `parse_queries` puts into a
map has a shape of its own (`MapFrom`), and reading a rendered map gives the map back
exactly if it has this shape and no character that is stored otherwise than it stands
(`readsBack_iff`). A map is the list of its pairs, in any order.
-/

namespace Webpp.Uri

open ComponentEncoder Loop Webpp.Text

variable {query : List Char × List Char} {queries : List (List Char × List Char)}

/-- A pair as it is rendered. -/
def renderQuery (query : List Char × List Char) (out : List Char) : List Char :=
  if query.2.isEmpty then out ++ query.1 else out ++ query.1 ++ '=' :: query.2

/-- The loop over the pairs, in the order of iteration. -/
def renderPairs : List (List Char × List Char) → List Char → List Char
  | [], out => out
  | [query], out => renderQuery query out
  | query :: queries, out => renderPairs queries (renderQuery query out ++ ['&'])

/-- `render_queries` of a map -/
def renderQueries (storage : List (List Char × List Char)) (out : List Char)
    (addSeparators : Bool) : List Char :=
  if storage.isEmpty then out
  else renderPairs storage (if addSeparators then out ++ ['?'] else out)

/-! ## The fields of the text -/

theorem renderQuery_append (query : List Char × List Char) (out : List Char) :
    renderQuery query out = out ++ renderQuery query [] := by
  rw [renderQuery, renderQuery]
  split <;> simp

theorem renderPairs_cons_cons (query next : List Char × List Char)
    (queries : List (List Char × List Char)) (out : List Char) :
    renderPairs (query :: next :: queries) out =
      renderPairs (next :: queries) (renderQuery query out ++ ['&']) := rfl

theorem renderPairs_append (queries : List (List Char × List Char)) (out : List Char) :
    renderPairs queries out = out ++ renderPairs queries [] := by
  induction queries generalizing out with
  | nil => exact (List.append_nil out).symm
  | cons query queries ih =>
      cases queries with
      | nil => exact renderQuery_append query out
      | cons next queries =>
          rw [renderPairs_cons_cons, renderPairs_cons_cons, ih,
            ih (renderQuery query [] ++ ['&']), renderQuery_append]
          simp

/-- The text of a map is that of its pairs, with a `&` between them. -/
theorem renderPairs_eq_intercalate (queries : List (List Char × List Char)) :
    renderPairs queries [] = ['&'].intercalate (queries.map fun query => renderQuery query []) := by
  induction queries with
  | nil => rfl
  | cons query queries ih =>
      cases queries with
      | nil => simp [renderPairs]
      | cons next queries =>
          rw [renderPairs_cons_cons, renderPairs_append, ih]
          simp [List.intercalate]

theorem renderQueries_eq (storage : List (List Char × List Char)) :
    renderQueries storage [] false = renderPairs storage [] := by
  cases storage with
  | nil => rfl
  | cons query queries => rfl

/-- A pair that is read back from its own text. -/
structure Renderable (query : List Char × List Char) : Prop where
  name : '=' ∉ query.1 ∧ '&' ∉ query.1
  value : '&' ∉ query.2

theorem Renderable.splitField_eq (h : Renderable query) :
    splitField (renderQuery query []) = query := by
  obtain ⟨name, value⟩ := query
  cases value with
  | nil =>
      have htext : renderQuery (name, []) [] = name := rfl
      rw [htext, splitField_of_not_mem h.name.1]
  | cons c value =>
      have htext : renderQuery (name, c :: value) [] = name ++ '=' :: c :: value := rfl
      rw [htext, splitField_append_separator h.name.1]

theorem Renderable.not_mem (h : Renderable query) :
    '&' ∉ renderQuery query [] := by
  rw [renderQuery]
  split
  · simpa using h.name.2
  · simpa using ⟨h.name.2, h.value⟩

theorem mem_renderQuery {c : Char}
    (h : c ∈ renderQuery query []) : c = '=' ∨ c ∈ query.1 ++ query.2 := by
  rw [renderQuery] at h
  split at h
  · exact .inr (List.mem_append_left _ h)
  · simp at h ⊢
    tauto

theorem mem_renderPairs {c : Char} (h : c ∈ renderPairs queries []) :
    (c = '=' ∨ c = '&') ∨ ∃ query ∈ queries, c ∈ query.1 ++ query.2 := by
  induction queries with
  | nil => cases h
  | cons query queries ih =>
      have hquery : c ∈ renderQuery query [] →
          (c = '=' ∨ c = '&') ∨ ∃ query' ∈ query :: queries, c ∈ query'.1 ++ query'.2 :=
        fun h => (mem_renderQuery h).imp .inl fun h => ⟨query, List.mem_cons_self .., h⟩
      cases queries with
      | nil => exact hquery h
      | cons next queries =>
          rw [renderPairs_cons_cons, renderPairs_append, List.mem_append, List.mem_append,
            List.mem_singleton] at h
          rcases h with (h | h) | h
          · exact hquery h
          · exact .inl (.inr h)
          · refine (ih h).imp_right ?_
            rintro ⟨query', hmem, hc⟩
            exact ⟨query', List.mem_cons_of_mem _ hmem, hc⟩

theorem subset_renderPairs (hmem : query ∈ queries) {c : Char}
    (hc : c ∈ query.1 ++ query.2) : c ∈ renderPairs queries [] := by
  have hself : c ∈ renderQuery query [] := by
    rw [renderQuery]
    split
    case isTrue h =>
      have hnil : query.2 = [] := List.isEmpty_iff.mp h
      rw [hnil, List.append_nil] at hc
      exact hc
    case isFalse =>
      simp at hc ⊢
      tauto
  induction queries with
  | nil => cases hmem
  | cons first queries ih =>
      cases queries with
      | nil =>
          rw [List.mem_singleton] at hmem
          exact hmem ▸ hself
      | cons next queries =>
          rw [renderPairs_cons_cons, renderPairs_append, List.mem_append, List.mem_append]
          rcases List.mem_cons.mp hmem with rfl | hmem
          · exact .inl (.inl hself)
          · exact .inr (ih hmem)

theorem splitFields_renderPairs (hne : queries ≠ []) (h : ∀ query ∈ queries, Renderable query) :
    splitFields (renderPairs queries []) = queries := by
  have hsplit : (renderPairs queries []).splitOn '&' =
      queries.map fun query => renderQuery query [] := by
    rw [renderPairs_eq_intercalate]
    refine List.splitOn_intercalate '&' ?_ (by simpa using hne)
    intro text htext
    obtain ⟨query, hquery, rfl⟩ := List.mem_map.mp htext
    exact (h query hquery).not_mem
  have hmap : ∀ query ∈ queries, (splitField ∘ fun query => renderQuery query []) query = query :=
    fun query hquery => (h query hquery).splitField_eq
  rw [splitFields, hsplit, List.map_map, List.map_congr_left hmap, List.map_id']

/-! ## What a map is filled with -/

/-- A character that is stored as it stands. -/
def isKept (scheme : SchemeType) (c : Char) : Bool :=
  !(queryPercentEncodeSet scheme).contains c && !isTextStop c

/-- A character that is stored for one of `q`. -/
def StoredFrom (scheme : SchemeType) (q : List Char) (x : Char) : Prop :=
  ∃ c ∈ q, isTextStop c = false ∧ x ∈ encodeUriChar (queryPercentEncodeSet scheme) c

/-- A pair that is filled, or in progress, when `q` is read. -/
structure PairFrom (scheme : SchemeType) (q : List Char) (query : List Char × List Char) :
    Prop extends Renderable query where
  chars : ∀ x ∈ query.1 ++ query.2, StoredFrom scheme q x

/-- A map that is filled when `q` is read. -/
structure MapFrom (scheme : SchemeType) (q : List Char) (pairs : List (List Char × List Char)) :
    Prop where
  pair : ∀ query ∈ pairs, PairFrom scheme q query
  filled : ∀ query ∈ pairs, isFilled query = true
  names : (pairs.map Prod.fst).Nodup

theorem mapFrom_nil (scheme : SchemeType) (q : List Char) : MapFrom scheme q [] :=
  ⟨by simp, by simp, List.nodup_nil⟩

theorem pairFrom_blank (scheme : SchemeType) (q : List Char) : PairFrom scheme q ([], []) :=
  ⟨⟨by simp, by simp⟩, by simp⟩

section Filling

variable {scheme : SchemeType} {q : List Char} {pairs : List (List Char × List Char)}
  {query : List Char × List Char} {c : Char}

theorem MapFrom.emplaceNew (h : MapFrom scheme q pairs) (hquery : PairFrom scheme q query) :
    MapFrom scheme q (if isFilled query then emplaceNew pairs query else pairs) := by
  split
  case isFalse => exact h
  case isTrue hfilled =>
    rw [Uri.emplaceNew]
    split
    case isTrue => exact h
    case isFalse hnew =>
      refine ⟨?_, ?_, ?_⟩
      · intro query' hmem
        rcases List.mem_append.mp hmem with hmem | hmem
        · exact h.pair query' hmem
        · rw [List.mem_singleton.mp hmem]
          exact hquery
      · intro query' hmem
        rcases List.mem_append.mp hmem with hmem | hmem
        · exact h.filled query' hmem
        · rw [List.mem_singleton.mp hmem]
          exact hfilled
      · rw [List.map_append, List.nodup_append]
        refine ⟨h.names, List.nodup_singleton _, ?_⟩
        rintro name hname name' hname' rfl
        rw [List.map_singleton, List.mem_singleton] at hname'
        exact hnew (hname' ▸ hname)

theorem PairFrom.append (h : PairFrom scheme q query) (hc : c ∈ q) (hstop : isTextStop c = false)
    (heq : c ≠ '=') (hamp : c ≠ '&') (inValue : Bool) :
    PairFrom scheme q (if inValue
      then (query.1, query.2 ++ encodeUriChar (queryPercentEncodeSet scheme) c)
      else (query.1 ++ encodeUriChar (queryPercentEncodeSet scheme) c, query.2)) := by
  have henc := not_mem_encodeUriChar (queryPercentEncodeSet scheme) heq hamp
  have hchars : ∀ x ∈ encodeUriChar (queryPercentEncodeSet scheme) c, StoredFrom scheme q x :=
    fun x hx => ⟨c, hc, hstop, hx⟩
  cases inValue with
  | true =>
      refine ⟨⟨h.name, ?_⟩, ?_⟩
      · rw [if_pos rfl, List.mem_append]
        exact fun hmem => hmem.elim h.value henc.2
      · intro x hx
        rw [if_pos rfl, ← List.append_assoc] at hx
        exact (List.mem_append.mp hx).elim (h.chars x) (hchars x)
  | false =>
      refine ⟨⟨⟨?_, ?_⟩, h.value⟩, ?_⟩
      · rw [if_neg Bool.false_ne_true, List.mem_append]
        exact fun hmem => hmem.elim h.name.1 henc.1
      · rw [if_neg Bool.false_ne_true, List.mem_append]
        exact fun hmem => hmem.elim h.name.2 henc.2
      · intro x hx
        rw [if_neg Bool.false_ne_true, List.mem_append, List.mem_append] at hx
        rcases hx with (hx | hx) | hx
        · exact h.chars x (List.mem_append_left _ hx)
        · exact hchars x hx
        · exact h.chars x (List.mem_append_right _ hx)

/-- A further `=` goes to the value. -/
theorem PairFrom.append_eq (h : PairFrom scheme q query) (hc : '=' ∈ q) (inValue : Bool) :
    PairFrom scheme q (if inValue then (query.1, query.2 ++ ['=']) else query) := by
  cases inValue with
  | false => exact h
  | true =>
      have heq : StoredFrom scheme q '=' :=
        ⟨'=', hc, by decide, by rw [encodeUriChar_separator scheme (.inl rfl)]; simp⟩
      refine ⟨⟨h.name, ?_⟩, ?_⟩
      · rw [if_pos rfl, List.mem_append]
        exact fun hmem => hmem.elim h.value (by decide)
      · intro x hx
        rw [if_pos rfl, ← List.append_assoc, List.mem_append, List.mem_singleton] at hx
        rcases hx with hx | rfl
        · exact h.chars x hx
        · exact heq

end Filling

/-- What the loop over `q` keeps. -/
structure FillsFrom (scheme : SchemeType) (q : List Char) (t : QueriesState Segregated) :
    Prop where
  pos : t.pos <:+ q
  buffer : PairFrom scheme q t.encoder.buffer
  map : MapFrom scheme q t.pairs

/-- What is left when the loop ends. -/
def EndsFrom (scheme : SchemeType) (q : List Char) : QueriesExit Segregated → Prop
  | .broke t => FillsFrom scheme q t
  | .returned ctx => MapFrom scheme q ctx.out.queries

/-- The loop goes on to such a state, or ends so. -/
def FillsOn (o : Options) (scheme : SchemeType) (q : List Char) (t : QueriesState Segregated) :
    Prop :=
  (∃ t', Leads o segregatedOutput (queryPercentEncodeSet scheme) t t' ∧
    t'.pos.length < t.pos.length ∧ FillsFrom scheme q t') ∨
  ∃ y, Ends o segregatedOutput (queryPercentEncodeSet scheme) t y ∧
    Partly (EndsFrom scheme q) y

section Rounds

variable {o : Options} {scheme : SchemeType} {q : List Char} {t : QueriesState Segregated}
  {pos : List Char} {c : Char}

theorem FillsFrom.of_fills (h : FillsFrom scheme q t) (hpos : t.pos = c :: pos)
    {pairs : List (List Char × List Char)} {buffer : List Char × List Char} {inValue : Bool}
    {t' : QueriesState Segregated}
    (ht : Fills o (queryPercentEncodeSet scheme) t pos pairs buffer inValue t')
    (hbuffer : PairFrom scheme q buffer) (hmap : MapFrom scheme q pairs) :
    FillsOn o scheme q t := by
  refine .inl ⟨t', ht.leads, ?_, ?_, ht.buffer ▸ hbuffer, ht.pairs ▸ hmap⟩
  · rw [ht.pos, hpos]
    exact Nat.lt_succ_self _
  · rw [ht.pos]
    exact (List.suffix_cons c pos).trans (hpos ▸ h.pos)

theorem FillsFrom.text (h : FillsFrom scheme q t) (hpos : t.pos = c :: pos)
    (hc : isTextStop c = false) : FillsOn o scheme q t := by
  have hmem : c ∈ q := h.pos.subset (hpos ▸ List.mem_cons_self ..)
  by_cases heq : c = '='
  · subst heq
    obtain ⟨t', ht⟩ := fills_eq o (queryPercentEncodeSet scheme) hpos
    exact h.of_fills hpos ht (h.buffer.append_eq hmem _) h.map
  by_cases hamp : c = '&'
  · subst hamp
    obtain ⟨t', ht⟩ := fills_amp o (queryPercentEncodeSet scheme) hpos
    exact h.of_fills hpos ht (pairFrom_blank scheme q) (h.map.emplaceNew h.buffer)
  · obtain ⟨t', ht⟩ := fills_plain o (queryPercentEncodeSet scheme) hpos hc heq hamp
    exact h.of_fills hpos ht (h.buffer.append hmem hc heq hamp _) h.map

theorem FillsFrom.escape (h : FillsFrom scheme q t) (hpos : t.pos = '%' :: pos) :
    FillsOn o scheme q t := by
  have hstore : ∀ chars, store segregatedOutput .queries chars t.encoder = t.encoder :=
    fun _ => rfl
  cases hr : percentEscape o.ignoreTabsOrNewlines ('%' :: pos) with
  | error e =>
      exact .inr ⟨.error e, ends_of_escape_error segregatedOutput_storesQuery _ hpos hr, trivial⟩
  | ok r =>
      have hsuffix := percentEscape_suffix o.ignoreTabsOrNewlines ('%' :: pos)
      rw [hr] at hsuffix
      by_cases hgo : r.2.2 = true ∨ o.allowInvalidCharacters = true
      · obtain ⟨t', ht, htpos, htout, htbuf, -⟩ := leads_of_escape segregatedOutput_storesQuery
          (queryPercentEncodeSet scheme) hpos hr hgo
        rw [hstore] at htout htbuf
        refine .inl ⟨t', ht, ?_, ?_, htbuf ▸ h.buffer, ?_⟩
        · rw [htpos, hpos]
          exact Nat.lt_succ_of_le (percentEscape_spec hr).2
        · rw [htpos]
          exact hsuffix.trans (hpos ▸ h.pos)
        · rw [QueriesState.pairs, htout]
          exact h.map
      · rw [not_or, Bool.not_eq_true, Bool.not_eq_true] at hgo
        obtain ⟨ctx, hends, hout⟩ := ends_of_escape segregatedOutput_storesQuery
          (queryPercentEncodeSet scheme) hpos hr hgo.1 hgo.2
        refine .inr ⟨_, hends, ?_⟩
        show MapFrom scheme q ctx.out.queries
        rw [hout, hstore]
        exact h.map

theorem FillsFrom.stop (h : FillsFrom scheme q t) (hpos : t.pos = c :: pos)
    (hc : c = '#' ∨ c = '\x00' ∧ o.eofIsValid = true) : FillsOn o scheme q t := by
  obtain ⟨t', hends, htpos, htout, htbuf, -⟩ :=
    ends_of_stop segregatedOutput_storesQuery (queryPercentEncodeSet scheme) hpos hc
  refine .inr ⟨_, hends, ?_, htbuf ▸ h.buffer, ?_⟩
  · rw [htpos, ← hpos]
    exact h.pos
  · rw [QueriesState.pairs]
    rcases htout with htout | htout <;> rw [htout] <;> exact h.map

theorem FillsFrom.questionable (h : FillsFrom scheme q t) (hpos : t.pos = c :: pos)
    (hc : isQuestionable o c = true) : FillsOn o scheme q t := by
  cases hi : o.ignoreTabsOrNewlines with
  | true =>
      obtain ⟨t', ht, htpos, htout, htbuf, -⟩ := leads_of_ignored segregatedOutput_storesQuery
        (queryPercentEncodeSet scheme) hpos hc hi
      refine .inl ⟨t', ht, ?_, ?_, htbuf ▸ h.buffer, ?_⟩
      · rw [htpos, hpos]
        exact Nat.lt_succ_self _
      · rw [htpos]
        exact (List.suffix_cons c pos).trans (hpos ▸ h.pos)
      · rw [QueriesState.pairs, htout]
        exact h.map
  | false =>
      cases ha : o.allowInvalidCharacters with
      | true =>
          obtain ⟨t', ht⟩ := fills_kept (queryPercentEncodeSet scheme) hpos hc hi ha
          exact h.of_fills hpos ht h.buffer h.map
      | false =>
          obtain ⟨ctx, hends, hout⟩ := ends_of_refused segregatedOutput_storesQuery
            (queryPercentEncodeSet scheme) hpos hc hi ha
          refine .inr ⟨_, hends, ?_⟩
          show MapFrom scheme q ctx.out.queries
          rw [hout]
          exact h.map

theorem FillsFrom.round (h : FillsFrom scheme q t) : FillsOn o scheme q t := by
  cases hpos : t.pos with
  | nil =>
      exact .inr ⟨_, endsWith_of_done (queriesStep_nil segregatedOutput_storesQuery o _ hpos), h⟩
  | cons c pos =>
      cases hc : isTextStop c with
      | false => exact h.text hpos hc
      | true =>
          have hmem : c ∈ ['#', '%', '\r', '\n', '\t', '\x00'] := List.contains_iff_mem.mp hc
          by_cases hesc : c = '%'
          · exact h.escape (hesc ▸ hpos)
          by_cases hstop : c = '#' ∨ c = '\x00' ∧ o.eofIsValid = true
          · exact h.stop hpos hstop
          · refine h.questionable hpos ?_
            simp [isQuestionable, isTabOrNewline] at hmem hstop ⊢
            tauto

theorem FillsFrom.run (h : FillsFrom scheme q t) :
    ∃ y, Ends o segregatedOutput (queryPercentEncodeSet scheme) t y ∧
      Partly (EndsFrom scheme q) y := by
  have hlen : ∀ n t, t.pos.length < n → FillsFrom scheme q t →
      ∃ y, Ends o segregatedOutput (queryPercentEncodeSet scheme) t y ∧
        Partly (EndsFrom scheme q) y := by
    intro n
    induction n with
    | zero => exact fun t hlt _ => absurd hlt (Nat.not_lt_zero _)
    | succ n ih =>
        intro t hlt h
        rcases h.round (o := o) with ⟨t', ht, hless, h'⟩ | hend
        · obtain ⟨y, hy, hfrom⟩ := ih t' (Nat.lt_of_lt_of_le hless (Nat.le_of_lt_succ hlt)) h'
          exact ⟨y, ht.ends hy, hfrom⟩
        · exact hend
  exact hlen (t.pos.length + 1) t (Nat.lt_succ_self _) h

end Rounds

theorem fillsFrom_start (scheme : SchemeType) (q : List Char) :
    FillsFrom scheme q ⟨ofCtx (queryCtx scheme q Segregated.empty), false⟩ :=
  ⟨List.suffix_refl q, pairFrom_blank scheme q, mapFrom_nil scheme q⟩

theorem queriesPairs_of_unread {o : Options} {q : List Char}
    (h : o.parseQueries = false ∨ q = []) (scheme : SchemeType) :
    queriesPairs o scheme q = .ok [] := by
  rw [queriesPairs, parseQueries]
  rcases h with h | h
  · rw [if_neg (by rw [h]; exact Bool.false_ne_true)]
    split
    · rfl
    · split <;> rfl
  · have hpos : (queryCtx scheme q Segregated.empty).pos = [] := h
    rw [if_pos hpos, if_pos hpos]
    split <;> rfl

/-- The map that `parse_queries` fills, whatever it reads: the names are different, no pair is
blank, no separator is in a name and no `&` in a value, and a character in it is stored for
one of the text. -/
theorem queriesPairs_mapFrom (o : Options) (scheme : SchemeType) (q : List Char) :
    Partly (MapFrom scheme q) (queriesPairs o scheme q) := by
  by_cases hread : o.parseQueries = false ∨ q = []
  · rw [queriesPairs_of_unread hread]
    exact mapFrom_nil scheme q
  rw [not_or, Bool.not_eq_false] at hread
  obtain ⟨y, hends, hfrom⟩ := (fillsFrom_start scheme q).run (o := o)
  rw [queriesPairs, parseQueries_of_ends _ hread.2 hread.1 hends]
  cases y with
  | error e => trivial
  | ok exit =>
      cases exit with
      | broke t =>
          have ht : FillsFrom scheme q t := hfrom
          obtain ⟨ctx, hend, hpairs⟩ := queriesEnd_pairs t
          show Partly (MapFrom scheme q)
            (queriesEnd segregatedOutput t >>= fun ctx => pure ctx.out.queries)
          rw [hend]
          show MapFrom scheme q ctx.out.queries
          rw [hpairs]
          exact ht.map.emplaceNew ht.buffer
      | returned ctx => exact hfrom

/-! ## Reading a rendered map -/

section RoundTrip

variable {o : Options} {scheme : SchemeType} {q : List Char}
  {storage : List (List Char × List Char)} {x c : Char}

theorem upperHexChars_not_encoded (scheme : SchemeType) {d : ℕ} (hd : d < 16) :
    (queryPercentEncodeSet scheme).contains (upperHexChars d) = false := by
  have hall : ∀ x ∈ "0123456789ABCDEF".toList,
      specialQueriesEncodeSet.contains x = false ∧ queriesEncodeSet.contains x = false := by
    decide
  have hmem : upperHexChars d ∈ "0123456789ABCDEF".toList := by
    rw [upperHexChars, List.getD_eq_getElem _ _ hd]
    exact List.getElem_mem hd
  rw [queryPercentEncodeSet]
  split
  · exact (hall _ hmem).1
  · exact (hall _ hmem).2

theorem contains_of_mem_toPercentHex (hc : c.toNat < 128) (hx : x ∈ toPercentHex c) :
    (queryPercentEncodeSet scheme).contains x = false := by
  rw [toPercentHex, List.mem_cons, List.mem_cons, List.mem_singleton] at hx
  rcases hx with rfl | rfl | rfl
  · cases scheme <;> decide
  · exact upperHexChars_not_encoded scheme (by omega)
  · exact upperHexChars_not_encoded scheme (by omega)

theorem StoredFrom.not_encoded (h : StoredFrom scheme q x) :
    (queryPercentEncodeSet scheme).contains x = false := by
  obtain ⟨c, -, -, hx⟩ := h
  rw [encodeUriChar] at hx
  split at hx
  case isTrue hset =>
    have hc : c.toNat < 128 := by
      rw [AsciiBitmap.contains, Bool.and_eq_true] at hset
      exact of_decide_eq_true hset.1
    exact contains_of_mem_toPercentHex hc hx
  case isFalse hset =>
    rw [List.mem_singleton.mp hx]
    exact Bool.eq_false_iff.mpr hset

theorem isKept_separator (scheme : SchemeType) (h : c = '=' ∨ c = '&') :
    isKept scheme c = true := by
  rcases h with rfl | rfl <;> cases scheme <;> decide

theorem soundText_of_isKept (h : isKept scheme c = true) : soundText scheme c = [c] := by
  rw [isKept, Bool.and_eq_true, Bool.not_eq_true', Bool.not_eq_true'] at h
  rw [soundText, if_neg (by rw [h.2]; exact Bool.false_ne_true), encodeUriChar,
    if_neg (by rw [h.1]; exact Bool.false_ne_true)]

theorem flatMap_soundText_of_isKept (h : ∀ c ∈ q, isKept scheme c = true) :
    q.flatMap (soundText scheme) = q := by
  induction q with
  | nil => rfl
  | cons c q ih =>
      rw [List.flatMap_cons, soundText_of_isKept (h c (List.mem_cons_self ..)),
        ih fun c hc => h c (List.mem_cons_of_mem _ hc)]
      rfl

theorem queriesPairs_of_isKept (ho : o.parseQueries = true) (hq : q ≠ [])
    (h : ∀ c ∈ q, isKept scheme c = true) :
    queriesPairs o scheme q = .ok (insertAll (splitFields q)) := by
  have hrun : ∀ c ∈ q, isSound o c = true := by
    intro c hc
    have hkept := h c hc
    rw [isKept, Bool.and_eq_true] at hkept
    rw [isSound, hkept.2, Bool.true_or]
  obtain ⟨s, t, done, field, hs, ht, hpos, htext, hexact⟩ :=
    (exact_start q).run (o := o) scheme (List.append_nil q).symm hrun
  obtain ⟨ctx, ctx', hctx, hctx', hpairs⟩ := exists_ends_exact hexact
  obtain ⟨ctx'', hctx'', hout⟩ := queriesEnd_text s
  have hends := ht.ends (endsWith_of_done
    (queriesStep_nil segregatedOutput_storesQuery o _ (hexact.pos.trans hpos)))
  have hsame : ctx = ctx'' := Except.ok.inj (hctx.symm.trans hctx'')
  rw [queriesPairs, parseQueries_of_broke _ hq ho hends, hctx', ok_bind, hpairs, hsame, hout,
    htext, flatMap_soundText_of_isKept h]
  rfl

/-- A map that is read back from the text it is rendered as. -/
structure Storable (scheme : SchemeType) (storage : List (List Char × List Char)) : Prop where
  renderable : ∀ query ∈ storage, Renderable query
  kept : ∀ query ∈ storage, ∀ x ∈ query.1 ++ query.2, isKept scheme x = true
  filled : ∀ query ∈ storage, isFilled query = true
  names : (storage.map Prod.fst).Nodup

theorem Storable.queriesPairs_eq (h : Storable scheme storage) (ho : o.parseQueries = true) :
    queriesPairs o scheme (renderQueries storage [] false) = .ok storage := by
  rw [renderQueries_eq]
  by_cases hnil : storage = []
  · rw [hnil]
    exact queriesPairs_of_unread (.inr rfl) scheme
  have hkept : ∀ c ∈ renderPairs storage [], isKept scheme c = true := by
    intro c hc
    rcases mem_renderPairs hc with hc | ⟨query, hquery, hc⟩
    · exact isKept_separator scheme hc
    · exact h.kept query hquery c hc
  have hne : renderPairs storage [] ≠ [] := by
    obtain ⟨query, hquery⟩ := List.exists_mem_of_ne_nil storage hnil
    intro htext
    have hblank : query.1 ++ query.2 = [] := by
      rw [List.eq_nil_iff_forall_not_mem]
      intro c hc
      have hmem := subset_renderPairs hquery hc
      rw [htext] at hmem
      cases hmem
    have hfilled := h.filled query hquery
    rw [List.append_eq_nil_iff] at hblank
    rw [isFilled, hblank.1, hblank.2] at hfilled
    cases hfilled
  have hall : storage.filter isFilled = storage := List.filter_eq_self.mpr h.filled
  rw [queriesPairs_of_isKept ho hne hkept, splitFields_renderPairs hnil h.renderable,
    insertAll_eq (by rw [hall]; exact h.names), hall]

theorem storable_of_mapFrom (h : MapFrom scheme (renderPairs storage []) storage) :
    Storable scheme storage := by
  refine ⟨fun query hquery => (h.pair query hquery).toRenderable, ?_, h.filled, h.names⟩
  intro query hquery x hx
  obtain ⟨c, hc, hstop, hmem⟩ := (h.pair query hquery).chars x hx
  -- the character for which it is stored needs no encoding, as it is in the map itself
  have hset : (queryPercentEncodeSet scheme).contains c = false := by
    rcases mem_renderPairs hc with hc | ⟨query', hquery', hc⟩
    · have hkept := isKept_separator scheme hc
      rw [isKept, Bool.and_eq_true, Bool.not_eq_true'] at hkept
      exact hkept.1
    · exact ((h.pair query' hquery').chars c hc).not_encoded
  rw [encodeUriChar, if_neg (by rw [hset]; exact Bool.false_ne_true), List.mem_singleton] at hmem
  rw [hmem, isKept, hset, hstop]
  rfl

theorem MapFrom.perm {pairs : List (List Char × List Char)} (h : MapFrom scheme q pairs)
    (hperm : pairs.Perm storage) : MapFrom scheme q storage where
  pair query hmem := h.pair query (hperm.mem_iff.mpr hmem)
  filled query hmem := h.filled query (hperm.mem_iff.mpr hmem)
  names := (hperm.map Prod.fst).nodup_iff.mp h.names

/-- The map that is filled from the text of a map has its pairs, in some order. -/
def ReadsBack (o : Options) (scheme : SchemeType) (storage : List (List Char × List Char)) :
    Prop :=
  ∃ pairs, queriesPairs o scheme (renderQueries storage [] false) = .ok pairs ∧
    pairs.Perm storage

/-- A map is read back from the text it is rendered as exactly if it is empty, or queries are
parsed and it has the shape of a map that is filled with characters stored as they stand. -/
theorem readsBack_iff (o : Options) (scheme : SchemeType)
    (storage : List (List Char × List Char)) :
    ReadsBack o scheme storage ↔ storage = [] ∨ o.parseQueries = true ∧ Storable scheme storage := by
  constructor
  · rintro ⟨pairs, h, hperm⟩
    by_cases ho : o.parseQueries = true
    · have hfrom := queriesPairs_mapFrom o scheme (renderQueries storage [] false)
      rw [h, renderQueries_eq] at hfrom
      have hpairs : MapFrom scheme (renderPairs storage []) pairs := hfrom
      exact .inr ⟨ho, storable_of_mapFrom (hpairs.perm hperm)⟩
    · rw [queriesPairs_of_unread (.inl (Bool.eq_false_iff.mpr ho))] at h
      cases h
      exact .inl (List.nil_perm.mp hperm)
  · rintro (rfl | ⟨ho, h⟩)
    · exact ⟨[], queriesPairs_of_unread (.inr rfl) scheme, .refl _⟩
    · exact ⟨storage, h.queriesPairs_eq ho, .refl _⟩

end RoundTrip

/-! ## Comparing with a text -/

/-- `find` of a map -/
def findQuery (storage : List (List Char × List Char)) (name : List Char) :
    Option (List Char) :=
  (storage.find? fun query => query.1 = name).map Prod.snd

/-- A text without the separator at its beginning. -/
def dropSeparator (separator : Char) : List Char → List Char
  | [] => []
  | c :: str => if c = separator then str else c :: str

/-- A round of `operator==` of queries and a text -/
def equalsTextStep (storage : List (List Char × List Char)) (str : List Char) :
    Run (Flow (List Char) Bool) :=
  if str.isEmpty then .ok (.done true)
  else
    let name := str.takeWhile fun c => c ≠ '=' && c ≠ '&'
    let str := dropSeparator '=' (str.drop name.length)
    let value := str.takeWhile fun c => c ≠ '&'
    if name.isEmpty || findQuery storage name ≠ some value then .ok (.done false)
    else .ok (.next (dropSeparator '&' (str.drop value.length)))

/-- `operator==` of queries and a text -/
def equalsText (storage : List (List Char × List Char)) (str : List Char) : Run Bool :=
  loop (equalsTextStep storage) .diverges (str.length + 1) str

/-- A field with a name that has this value in the map. -/
def Agrees (storage : List (List Char × List Char)) (query : List Char × List Char) : Prop :=
  query.1 ≠ [] ∧ findQuery storage query.1 = some query.2

instance (storage : List (List Char × List Char)) (query : List Char × List Char) :
    Decidable (Agrees storage query) := inferInstanceAs (Decidable (_ ∧ _))

/-- The fields that are compared: behind a `&` at the end there is none. -/
def comparedFields (str : List Char) : List (List Char × List Char) :=
  if str = [] ∨ str.getLast? = some '&' then (splitFields str).dropLast else splitFields str

section Comparing

variable {storage : List (List Char × List Char)} {field rest : List Char}

theorem comparedFields_last (hne : field ≠ []) (hamp : '&' ∉ field) :
    comparedFields field = [splitField field] := by
  have hlast : field.getLast? ≠ some '&' := fun h => hamp (List.mem_of_getLast? h)
  rw [comparedFields, if_neg (by tauto), splitFields, List.splitOn_eq_singleton hamp]
  rfl

theorem comparedFields_cons (hamp : '&' ∉ field) (rest : List Char) :
    comparedFields (field ++ '&' :: rest) = splitField field :: comparedFields rest := by
  have hsplit : splitFields (field ++ '&' :: rest) = splitField field :: splitFields rest := by
    rw [splitFields, List.splitOn_append_cons_self_of_not_mem hamp]
    rfl
  have hne : splitFields rest ≠ [] := by
    rw [splitFields, Ne, List.map_eq_nil_iff]
    exact List.splitOn_ne_nil _ _
  have hlast : (field ++ '&' :: rest = [] ∨ (field ++ '&' :: rest).getLast? = some '&') ↔
      (rest = [] ∨ rest.getLast? = some '&') := by
    cases rest with
    | nil => simp
    | cons c rest =>
        have hgo : (field ++ '&' :: c :: rest).getLast? = (c :: rest).getLast? := by
          rw [List.getLast?_append_of_ne_nil _ (List.cons_ne_nil _ _), List.getLast?_cons_cons]
        rw [hgo]
        simp
  rw [comparedFields, comparedFields, hsplit]
  by_cases h : rest = [] ∨ rest.getLast? = some '&'
  · rw [if_pos (hlast.mpr h), if_pos h, List.dropLast_cons_of_ne_nil hne]
  · rw [if_neg fun h' => h (hlast.mp h'), if_neg h]

/-- Nothing is left of a text, or it begins a further field. -/
def AtField (rest : List Char) : Prop := rest = [] ∨ ∃ str, rest = '&' :: str

theorem takeWhile_field {p : Char → Bool} {front : List Char} (h : ∀ c ∈ front, p c = true)
    (hamp : p '&' = false) (hrest : AtField rest) : (front ++ rest).takeWhile p = front := by
  rw [List.takeWhile_append_of_pos h]
  rcases hrest with rfl | ⟨str, rfl⟩
  · rw [List.takeWhile_nil, List.append_nil]
  · rw [List.takeWhile_cons_of_neg (by rw [hamp]; exact Bool.false_ne_true), List.append_nil]

theorem equalsTextStep_field (hamp : '&' ∉ field) (hne : field ++ rest ≠ [])
    (hrest : AtField rest) :
    equalsTextStep storage (field ++ rest) =
      if Agrees storage (splitField field) then .ok (.next (dropSeparator '&' rest))
      else .ok (.done false) := by
  have hvalue : ∀ {value : List Char}, '&' ∉ value →
      (value ++ rest).takeWhile (fun c => c ≠ '&') = value := by
    intro value hvalue
    refine takeWhile_field (fun c hc => ?_) rfl hrest
    exact decide_eq_true fun heq => hvalue (heq ▸ hc)
  have hname : ∀ {name : List Char}, '=' ∉ name → '&' ∉ name →
      ∀ c ∈ name, (c ≠ '=' && c ≠ '&') = true := by
    intro name heq hamp c hc
    have h1 : c ≠ '=' := fun h => heq (h ▸ hc)
    have h2 : c ≠ '&' := fun h => hamp (h ▸ hc)
    simp [h1, h2]
  have hagrees : ∀ name value : List Char,
      (name.isEmpty || decide (findQuery storage name ≠ some value)) = false ↔
        Agrees storage (name, value) := by
    intro name value
    simp [Agrees]
  rw [equalsTextStep, if_neg (by simpa using hne)]
  rcases exists_splitField field with ⟨heq, hsplit⟩ | ⟨name, value, rfl, heq, hsplit⟩
  · have hempty : dropSeparator '=' rest = rest := by
      rcases hrest with rfl | ⟨str, rfl⟩
      · rfl
      · rw [dropSeparator, if_neg (by decide)]
    have hnone : rest.takeWhile (fun c => c ≠ '&') = [] := @hvalue [] List.not_mem_nil
    simp only [takeWhile_field (hname heq hamp) (by decide) hrest, List.drop_left, hempty, hnone,
      hsplit, List.length_nil, List.drop_zero]
    by_cases h : Agrees storage (field, [])
    · rw [if_pos h, (hagrees field []).mpr h, if_neg Bool.false_ne_true]
    · rw [if_neg h, if_pos (Bool.of_not_eq_false (mt (hagrees field []).mp h))]
  · simp only [List.mem_append, List.mem_cons, not_or] at hamp
    have htake : (name ++ '=' :: value ++ rest).takeWhile (fun c => c ≠ '=' && c ≠ '&') =
        name := by
      rw [List.append_assoc, List.takeWhile_append_of_pos (hname heq hamp.1), List.cons_append,
        List.takeWhile_cons_of_neg (by decide), List.append_nil]
    have hdrop : (name ++ '=' :: value ++ rest).drop name.length = '=' :: (value ++ rest) := by
      rw [List.append_assoc, List.drop_left]
      rfl
    simp only [htake, hdrop, dropSeparator, if_true, hvalue hamp.2.2, List.drop_left, hsplit]
    by_cases h : Agrees storage (name, value)
    · rw [if_pos h, (hagrees name value).mpr h, if_neg Bool.false_ne_true]
    · rw [if_neg h, if_pos (Bool.of_not_eq_false (mt (hagrees name value).mp h))]

/-- The comparison ends, and it compares the fields of the text. A name that the text does
not have is not missed. -/
theorem equalsText_eq (storage : List (List Char × List Char)) (str : List Char) :
    equalsText storage str =
      .ok (decide (∀ query ∈ comparedFields str, Agrees storage query)) := by
  have hrun : ∀ n (str : List Char), str.length < n →
      loop (equalsTextStep storage) .diverges n str =
        .ok (decide (∀ query ∈ comparedFields str, Agrees storage query)) := by
    intro n
    induction n with
    | zero => exact fun str hlt => absurd hlt (Nat.not_lt_zero _)
    | succ n ih =>
        intro str hlt
        by_cases hnil : str = []
        · rw [hnil, loop_of_done (r := true) rfl]
          rfl
        by_cases hamp : '&' ∈ str
        · obtain ⟨field, rest, rfl, hfield⟩ := List.eq_append_cons_of_mem hamp
          have hstep : equalsTextStep storage (field ++ '&' :: rest) = _ :=
            equalsTextStep_field hfield hnil (.inr ⟨rest, rfl⟩)
          have hdrop : dropSeparator '&' ('&' :: rest) = rest := by rw [dropSeparator, if_pos rfl]
          rw [hdrop] at hstep
          rw [comparedFields_cons hfield]
          by_cases h : Agrees storage (splitField field)
          · rw [if_pos h] at hstep
            have hless : rest.length < n := by
              rw [List.length_append, List.length_cons] at hlt
              omega
            rw [loop_of_next hstep, ih rest hless]
            simp [h]
          · rw [if_neg h] at hstep
            rw [loop_of_done hstep]
            simp [h]
        · have hstep : equalsTextStep storage (str ++ []) = _ :=
            equalsTextStep_field hamp (by simpa using hnil) (.inl rfl)
          rw [List.append_nil] at hstep
          rw [comparedFields_last hnil hamp]
          by_cases h : Agrees storage (splitField str)
          · rw [if_pos h] at hstep
            have hn : 0 < n := by
              have hpos := List.length_pos_iff.mpr hnil
              omega
            have hend := ih [] hn
            rw [loop_of_next hstep]
            show loop (equalsTextStep storage) .diverges n [] = _
            rw [hend]
            simp [h, comparedFields, splitFields]
          · rw [if_neg h] at hstep
            rw [loop_of_done hstep]
            simp [h]
  exact hrun _ str (Nat.lt_succ_self _)

theorem findQuery_of_mem (hnames : (storage.map Prod.fst).Nodup)
    (hmem : query ∈ storage) : findQuery storage query.1 = some query.2 := by
  induction storage with
  | nil => cases hmem
  | cons first storage ih =>
      rw [List.map_cons, List.nodup_cons] at hnames
      rcases List.mem_cons.mp hmem with rfl | hmem
      · simp [findQuery]
      · have hne : first.1 ≠ query.1 := fun heq =>
          hnames.1 (heq ▸ List.mem_map_of_mem hmem)
        have hrest := ih hnames.2 hmem
        rw [findQuery] at hrest ⊢
        rw [List.find?_cons_of_neg (by simpa using hne)]
        exact hrest

theorem renderQuery_ne_nil (h : isFilled query = true) :
    renderQuery query [] ≠ [] := by
  rw [renderQuery]
  split
  case isTrue hempty =>
    intro hnil
    rw [isFilled, hempty, Bool.and_true] at h
    rw [List.nil_append] at hnil
    rw [hnil] at h
    cases h
  case isFalse => simp

theorem comparedFields_renderPairs (h : ∀ query ∈ storage, Renderable query)
    (hfilled : ∀ query ∈ storage, isFilled query = true) :
    comparedFields (renderPairs storage []) = storage := by
  induction storage with
  | nil => rfl
  | cons query storage ih =>
      have hquery := h query (List.mem_cons_self ..)
      cases storage with
      | nil =>
          have htext : renderPairs [query] [] = renderQuery query [] := rfl
          rw [htext, comparedFields_last (renderQuery_ne_nil (hfilled query
            (List.mem_cons_self ..))) hquery.not_mem, hquery.splitField_eq]
      | cons next storage =>
          rw [renderPairs_cons_cons, renderPairs_append, List.append_assoc, List.singleton_append,
            comparedFields_cons hquery.not_mem, hquery.splitField_eq,
            ih (fun query hmem => h query (List.mem_cons_of_mem _ hmem))
              fun query hmem => hfilled query (List.mem_cons_of_mem _ hmem)]

theorem equalsText_renderQueries {scheme : SchemeType} {q : List Char}
    (h : MapFrom scheme q storage) :
    equalsText storage (renderQueries storage [] false) =
      .ok (decide ([] ∉ storage.map Prod.fst)) := by
  rw [renderQueries_eq, equalsText_eq, comparedFields_renderPairs
    (fun query hmem => (h.pair query hmem).toRenderable) h.filled]
  congr 1
  refine decide_eq_decide.mpr ⟨fun hall hmem => ?_, fun hmem query hquery => ⟨?_, ?_⟩⟩
  · obtain ⟨query, hquery, hname⟩ := List.mem_map.mp hmem
    exact (hall query hquery).1 hname
  · exact fun hname => hmem (hname ▸ List.mem_map_of_mem hquery)
  · exact findQuery_of_mem h.names hquery

/-- Queries that are filled from any text equal the text that they are rendered as exactly if
no name is empty. -/
theorem equalsText_of_queriesPairs {o : Options} {scheme : SchemeType} {q : List Char}
    (h : queriesPairs o scheme q = .ok storage) :
    equalsText storage (renderQueries storage [] false) =
      .ok (decide ([] ∉ storage.map Prod.fst)) := by
  have hfrom := queriesPairs_mapFrom o scheme q
  rw [h] at hfrom
  exact equalsText_renderQueries hfrom

/-- Queries with an empty name. -/
theorem equalsText_of_queriesPairs_unnamed :
    equalsText [([], ['1']), (['a'], [])]
      (renderQueries [([], ['1']), (['a'], [])] [] false) = .ok false :=
  @equalsText_of_queriesPairs _ standardUriParsingOptions .notSpecial "=1&a".toList (by rfl)

end Comparing

end Webpp.Uri
