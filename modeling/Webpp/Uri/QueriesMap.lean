import Mathlib.Data.List.GetD
import Webpp.Uri.QueriesRounds

/-!
# Queries as a text and as a map

The fields of the text that `parse_queries` stores in a context of strings are the
pairs of the map that it fills in a segregated context, as long as only sound
characters are read (`Exact`). An escape goes to the text and not to the map, and from
there on the map stays behind (`Behind`).
-/

namespace Webpp.Uri

open ComponentEncoder Loop Webpp.Text

variable {done : List (List Char)} {field : List Char} {t : QueriesState Segregated}
  {s : QueriesState Strings} {q : List Char} {ctx : Ctx Strings} {c : Char} {O : Output σ}

/-! ## The map and the fields of the text -/

/-- The filled pairs, put into an empty map one after the other. -/
def insertAll (pairs : List (List Char × List Char)) : List (List Char × List Char) :=
  (pairs.filter isFilled).foldl emplaceNew []

theorem insertAll_append_singleton (pairs : List (List Char × List Char))
    (pair : List Char × List Char) :
    insertAll (pairs ++ [pair]) =
      if isFilled pair then emplaceNew (insertAll pairs) pair else insertAll pairs := by
  rw [insertAll, List.filter_append, List.foldl_append]
  cases h : isFilled pair with
  | true => rw [List.filter_cons_of_pos h]; rfl
  | false => rw [List.filter_cons_of_neg (by rw [h]; exact Bool.false_ne_true)]; rfl

theorem foldl_emplaceNew {map pairs : List (List Char × List Char)}
    (h : ((map ++ pairs).map Prod.fst).Nodup) : pairs.foldl emplaceNew map = map ++ pairs := by
  induction pairs generalizing map with
  | nil => exact (List.append_nil map).symm
  | cons pair pairs ih =>
      have hnew : pair.1 ∉ map.map Prod.fst := by
        rw [List.map_append, List.nodup_append] at h
        intro hmem
        exact h.2.2 _ hmem _ (List.mem_cons_self ..) rfl
      rw [List.foldl_cons, emplaceNew, if_neg hnew, ih (by simpa using h), List.append_assoc,
        List.singleton_append]

theorem insertAll_eq {pairs : List (List Char × List Char)}
    (h : ((pairs.filter isFilled).map Prod.fst).Nodup) :
    insertAll pairs = pairs.filter isFilled := by
  rw [insertAll, foldl_emplaceNew (by rw [List.nil_append]; exact h), List.nil_append]

theorem pairsCount_emplaceNew_le (map : List (List Char × List Char))
    (pair : List Char × List Char) :
    pairsCount (emplaceNew map pair) ≤ pairsCount map + pairCount pair := by
  rw [emplaceNew]
  split
  · exact Nat.le_add_right _ _
  · rw [pairsCount_append, pairsCount_singleton]

theorem pairsCount_foldl_le (map pairs : List (List Char × List Char)) :
    pairsCount (pairs.foldl emplaceNew map) ≤ pairsCount map + pairsCount pairs := by
  induction pairs generalizing map with
  | nil => exact Nat.le_add_right _ _
  | cons pair pairs ih =>
      have hcons : pairsCount (pair :: pairs) = pairCount pair + pairsCount pairs :=
        List.sum_cons
      rw [List.foldl_cons, hcons, ← Nat.add_assoc]
      exact (ih _).trans (Nat.add_le_add_right (pairsCount_emplaceNew_le map pair) _)

theorem pairsCount_insertAll_le (pairs : List (List Char × List Char)) :
    pairsCount (insertAll pairs) ≤ pairsCount pairs := by
  have h := pairsCount_foldl_le [] (pairs.filter isFilled)
  rw [pairsCount_filter_isFilled] at h
  exact h.trans (Nat.le_of_eq (Nat.zero_add _))

/-! ## Encoded characters are no separators -/

theorem not_mem_toPercentHex (c : Char) : '=' ∉ toPercentHex c ∧ '&' ∉ toPercentHex c := by
  have hdigit : ∀ d, upperHexChars d ≠ '=' ∧ upperHexChars d ≠ '&' := by
    intro d
    have hmem : upperHexChars d ∈ '\x00' :: "0123456789ABCDEF".toList := by
      by_cases hd : d < "0123456789ABCDEF".toList.length
      · rw [upperHexChars, List.getD_eq_getElem _ _ hd]
        exact List.mem_cons_of_mem _ (List.getElem_mem hd)
      · rw [upperHexChars, List.getD_eq_default _ _ (Nat.le_of_not_lt hd)]
        exact List.mem_cons_self ..
    have hall : ∀ x ∈ '\x00' :: "0123456789ABCDEF".toList, x ≠ '=' ∧ x ≠ '&' := by decide
    exact hall _ hmem
  constructor
  · simp [toPercentHex, (hdigit _).1.symm]
  · simp [toPercentHex, (hdigit _).2.symm]

theorem not_mem_encodeUriChar (set : AsciiBitmap) (heq : c ≠ '=') (hamp : c ≠ '&') :
    '=' ∉ encodeUriChar set c ∧ '&' ∉ encodeUriChar set c := by
  rw [encodeUriChar]
  split
  · exact not_mem_toPercentHex c
  · simp [heq.symm, hamp.symm]

theorem encodeUriChar_separator (scheme : SchemeType) (hc : c = '=' ∨ c = '&') :
    encodeUriChar (queryPercentEncodeSet scheme) c = [c] := by
  rcases hc with rfl | rfl <;> cases scheme <;> decide

/-! ## What went both ways -/

/-- All that has been read is in the text and in the map. -/
structure Exact (s : QueriesState Strings) (t : QueriesState Segregated)
    (done : List (List Char)) (field : List Char) : Prop where
  pos : t.pos = s.pos
  reading : Reading s.text done field
  pairs : t.pairs = insertAll (done.map splitField)
  buffer : t.encoder.buffer = splitField field
  inValue : t.inValue = decide ('=' ∈ field)

/-- Both loops go on to `pos` and store `chars`, in the text and in the map. -/
def ReadsOn (o : Options) (scheme : SchemeType) (s : QueriesState Strings)
    (t : QueriesState Segregated) (pos chars : List Char) : Prop :=
  ∃ s' t' done field, Leads o stringOutput (queryPercentEncodeSet scheme) s s' ∧
    Leads o segregatedOutput (queryPercentEncodeSet scheme) t t' ∧ s'.pos = pos ∧
    s'.text = s.text ++ chars ∧ Exact s' t' done field

/-- The characters that go both ways. -/
def isSound (o : Options) (c : Char) : Bool :=
  !isTextStop c || (isQuestionable o c && o.ignoreTabsOrNewlines)

/-- What is stored for such a character. -/
def soundText (scheme : SchemeType) (c : Char) : List Char :=
  if isTextStop c then [] else encodeUriChar (queryPercentEncodeSet scheme) c

section Exact

variable {o : Options} (scheme : SchemeType) {s : QueriesState Strings}
  {t : QueriesState Segregated} {done : List (List Char)} {field pos : List Char} {c : Char}

theorem Exact.encoded (h : Exact s t done field) (hpos : s.pos = c :: pos)
    (hc : isTextStop c = false) (heq : c ≠ '=') (hamp : c ≠ '&') :
    ReadsOn o scheme s t pos (encodeUriChar (queryPercentEncodeSet scheme) c) := by
  obtain ⟨s', hs⟩ := writes_plain o (queryPercentEncodeSet scheme) hpos hc
  obtain ⟨t', ht⟩ := fills_plain o (queryPercentEncodeSet scheme)
    (h.pos.trans hpos) hc heq hamp
  have henc := not_mem_encodeUriChar (queryPercentEncodeSet scheme) heq hamp
  refine ⟨s', t', done, field ++ encodeUriChar (queryPercentEncodeSet scheme) c, hs.leads,
    ht.leads, hs.pos, hs.text, ht.pos.trans hs.pos.symm, ?_, ht.pairs.trans h.pairs, ?_, ?_⟩
  · rw [hs.text]
    exact h.reading.append henc.2
  · rw [ht.buffer, h.inValue, h.buffer]
    by_cases hmem : '=' ∈ field
    · rw [if_pos (decide_eq_true hmem), splitField_append_of_mem hmem]
    · have hmem' : '=' ∉ field ++ encodeUriChar (queryPercentEncodeSet scheme) c := by
        rw [List.mem_append]
        exact fun h => h.elim hmem henc.1
      rw [if_neg (by simpa using hmem), splitField_of_not_mem hmem,
        splitField_of_not_mem hmem']
  · rw [ht.inValue, h.inValue]
    simp [henc.1]

theorem Exact.eq (h : Exact s t done field) (hpos : s.pos = '=' :: pos) :
    ReadsOn o scheme s t pos ['='] := by
  obtain ⟨s', hs⟩ := writes_plain o (queryPercentEncodeSet scheme) hpos
    (by decide)
  obtain ⟨t', ht⟩ := fills_eq o (queryPercentEncodeSet scheme)
    (h.pos.trans hpos)
  rw [encodeUriChar_separator scheme (.inl rfl)] at hs
  refine ⟨s', t', done, field ++ ['='], hs.leads, ht.leads, hs.pos, hs.text,
    ht.pos.trans hs.pos.symm, ?_, ht.pairs.trans h.pairs, ?_, ?_⟩
  · rw [hs.text]
    exact h.reading.append (by decide)
  · rw [ht.buffer, h.inValue, h.buffer]
    by_cases hmem : '=' ∈ field
    · rw [if_pos (decide_eq_true hmem), splitField_append_of_mem hmem]
    · rw [if_neg (by simpa using hmem), splitField_of_not_mem hmem,
        splitField_append_separator hmem]
  · rw [ht.inValue]
    simp

theorem Exact.amp (h : Exact s t done field) (hpos : s.pos = '&' :: pos) :
    ReadsOn o scheme s t pos ['&'] := by
  obtain ⟨s', hs⟩ := writes_plain o (queryPercentEncodeSet scheme) hpos
    (by decide)
  obtain ⟨t', ht⟩ := fills_amp o (queryPercentEncodeSet scheme)
    (h.pos.trans hpos)
  rw [encodeUriChar_separator scheme (.inr rfl)] at hs
  refine ⟨s', t', done ++ [field], [], hs.leads, ht.leads, hs.pos, hs.text,
    ht.pos.trans hs.pos.symm, ?_, ?_, ht.buffer, ht.inValue⟩
  · rw [hs.text]
    exact h.reading.amp
  · rw [ht.pairs, h.pairs, h.buffer, List.map_append, List.map_singleton,
      insertAll_append_singleton]

theorem Exact.ignored (h : Exact s t done field) (hpos : s.pos = c :: pos)
    (hc : isQuestionable o c = true) (hi : o.ignoreTabsOrNewlines = true) :
    ReadsOn o scheme s t pos [] := by
  obtain ⟨s', hs, hspos, hsout, -, -⟩ := leads_of_ignored stringOutput_storesQuery
    (queryPercentEncodeSet scheme) hpos hc hi
  obtain ⟨t', ht, htpos, htout, htbuf, htin⟩ := leads_of_ignored segregatedOutput_storesQuery
    (queryPercentEncodeSet scheme) (h.pos.trans hpos) hc hi
  have htext : s'.text = s.text := congrFun hsout .queries
  refine ⟨s', t', done, field, hs, ht, hspos, htext.trans (List.append_nil _).symm,
    htpos.trans hspos.symm, ?_, ?_, htbuf.trans h.buffer, htin.trans h.inValue⟩
  · rw [htext]
    exact h.reading
  · rw [QueriesState.pairs, htout]
    exact h.pairs

theorem Exact.round (h : Exact s t done field) (hpos : s.pos = c :: pos)
    (hc : isSound o c = true) : ReadsOn o scheme s t pos (soundText scheme c) := by
  cases hstop : isTextStop c with
  | false =>
      rw [soundText, hstop, if_neg Bool.false_ne_true]
      by_cases heq : c = '='
      · rw [encodeUriChar_separator scheme (.inl heq), heq]
        exact h.eq scheme (heq ▸ hpos)
      · by_cases hamp : c = '&'
        · rw [encodeUriChar_separator scheme (.inr hamp), hamp]
          exact h.amp scheme (hamp ▸ hpos)
        · exact h.encoded scheme hpos hstop heq hamp
  | true =>
      rw [soundText, hstop, if_pos rfl]
      rw [isSound, hstop, Bool.not_true, Bool.false_or, Bool.and_eq_true] at hc
      exact h.ignored scheme hpos hc.1 hc.2

theorem Exact.run {run rest : List Char} (h : Exact s t done field)
    (hpos : s.pos = run ++ rest) (hrun : ∀ c ∈ run, isSound o c = true) :
    ReadsOn o scheme s t rest (run.flatMap (soundText scheme)) := by
  induction run generalizing s t done field with
  | nil =>
      exact ⟨s, t, done, field, .refl s, .refl t, hpos, (List.append_nil _).symm, h⟩
  | cons c run ih =>
      obtain ⟨s', t', done', field', hs, ht, hpos', htext', h'⟩ :=
        h.round scheme hpos (hrun c (List.mem_cons_self ..))
      obtain ⟨s'', t'', done'', field'', hs', ht', hpos'', htext'', h''⟩ :=
        ih h' hpos' fun c hc => hrun c (List.mem_cons_of_mem _ hc)
      refine ⟨s'', t'', done'', field'', hs.trans hs', ht.trans ht', hpos'', ?_, h''⟩
      rw [htext'', htext', List.append_assoc, List.flatMap_cons]

end Exact

/-- What is stored behind the last `&` is what is stored for the text behind it. -/
theorem lastField_flatMap (scheme : SchemeType) (run : List Char) :
    lastField (run.flatMap (soundText scheme)) =
      (lastField run).flatMap (soundText scheme) := by
  induction run using List.reverseRecOn with
  | nil => rfl
  | append_singleton run c ih =>
      rw [List.flatMap_append, List.flatMap_singleton]
      by_cases hamp : c = '&'
      · have hone : soundText scheme '&' = ['&'] := by
          rw [soundText, if_neg (by decide), encodeUriChar_separator scheme (.inr rfl)]
        rw [hamp, hone, lastField_amp, lastField_amp]
        rfl
      · have hnot : '&' ∉ soundText scheme c := by
          rw [soundText]
          split
          · exact List.not_mem_nil
          · by_cases heq : c = '='
            · rw [heq, encodeUriChar_separator scheme (.inl rfl)]
              decide
            · exact (not_mem_encodeUriChar _ heq hamp).2
        have hc : '&' ∉ [c] := by simpa using Ne.symm hamp
        rw [lastField_append hnot, lastField_append hc, ih, List.flatMap_append,
          List.flatMap_singleton]

theorem soundText_ne_nil (scheme : SchemeType) (h : isTextStop c = false) :
    soundText scheme c ≠ [] := by
  rw [soundText, h, if_neg Bool.false_ne_true, encodeUriChar]
  split <;> exact List.cons_ne_nil _ _

theorem flatMap_soundText_blank (scheme : SchemeType) (h : ∀ c ∈ field, isTextStop c = false) :
    (field.flatMap (soundText scheme) = [] ∨ field.flatMap (soundText scheme) = ['=']) ↔
      (field = [] ∨ field = ['=']) := by
  cases field with
  | nil => simp
  | cons c field =>
      have hne := soundText_ne_nil scheme (h c (List.mem_cons_self ..))
      rw [List.flatMap_cons]
      by_cases heq : c = '='
      · have hone : soundText scheme '=' = ['='] := by
          rw [soundText, if_neg (by decide), encodeUriChar_separator scheme (.inl rfl)]
        have hrest : field.flatMap (soundText scheme) = [] ↔ field = [] := by
          rw [List.flatMap_eq_nil_iff]
          refine ⟨fun hall => List.eq_nil_iff_forall_not_mem.mpr fun c hc => ?_, ?_⟩
          · exact soundText_ne_nil scheme (h c (List.mem_cons_of_mem _ hc)) (hall c hc)
          · rintro rfl c hc
            exact absurd hc List.not_mem_nil
        simp [heq, hone, hrest]
      · -- the first character stored for `c` is no `=`
        have hmem : '=' ∉ soundText scheme c := by
          by_cases hamp : c = '&'
          · rw [hamp, soundText, if_neg (by decide), encodeUriChar_separator scheme (.inr rfl)]
            decide
          · rw [soundText, h c (List.mem_cons_self ..), if_neg Bool.false_ne_true]
            exact (not_mem_encodeUriChar _ heq hamp).1
        cases hs : soundText scheme c with
        | nil => exact absurd hs hne
        | cons d rest =>
            rw [hs] at hmem
            have hd : d ≠ '=' := fun hd => hmem (hd ▸ List.mem_cons_self ..)
            simp [heq, hd]

/-! ## What the map falls behind -/

/-- The map and its pair in progress are at least `d` characters behind the text. -/
structure Behind (d : ℕ) (s : QueriesState Strings) (t : QueriesState Segregated) : Prop where
  pos : t.pos = s.pos
  count : pairsCount t.pairs + pairCount t.encoder.buffer + d ≤ textCount s.text

/-- The loops end alike, with the map at least `d` characters behind the text. -/
def EndsBehind (d : ℕ) : QueriesExit Strings → QueriesExit Segregated → Prop
  | .broke s, .broke t => Behind d s t
  | .returned ctx, .returned ctx' =>
      pairsCount ctx'.out.queries + d ≤ textCount (ctx.out .queries)
  | _, _ => False

/-- Both loops go on to states that are related by `Behind d`, or end so. -/
def StaysBehind (o : Options) (scheme : SchemeType) (d : ℕ) (s : QueriesState Strings)
    (t : QueriesState Segregated) : Prop :=
  (∃ s' t', Leads o stringOutput (queryPercentEncodeSet scheme) s s' ∧
    Leads o segregatedOutput (queryPercentEncodeSet scheme) t t' ∧
    s'.pos.length < s.pos.length ∧ Behind d s' t') ∨
  ∃ x y, Ends o stringOutput (queryPercentEncodeSet scheme) s x ∧
    Ends o segregatedOutput (queryPercentEncodeSet scheme) t y ∧ Related (EndsBehind d) x y

theorem Exact.behind (h : Exact s t done field) :
    Behind 0 s t where
  pos := h.pos
  count := by
    rw [h.pairs, h.buffer, ← pairsCount_splitFields s.text, h.reading.splitFields_eq,
      pairsCount_append, pairsCount_singleton, Nat.add_zero]
    exact Nat.add_le_add_right (pairsCount_insertAll_le _) _

section Behind

variable {o : Options} {scheme : SchemeType} {d : ℕ} {s : QueriesState Strings}
  {t : QueriesState Segregated} {pos : List Char} {c : Char}

variable (scheme) in
theorem Behind.escape (h : Behind d s t) (hpos : s.pos = '%' :: pos) :
    StaysBehind o scheme (d + 1) s t := by
  have hpos' := h.pos.trans hpos
  cases hr : percentEscape o.ignoreTabsOrNewlines ('%' :: pos) with
  | error e =>
      exact .inr ⟨.error e, .error e,
        ends_of_escape_error stringOutput_storesQuery _ hpos hr,
        ends_of_escape_error segregatedOutput_storesQuery _ hpos' hr, .error e⟩
  | ok r =>
      obtain ⟨⟨chars, hchars⟩, hlen⟩ := percentEscape_spec hr
      -- the text gets at least the `%`
      have htext : textCount ((store stringOutput .queries r.1 s.encoder).ctx.out .queries) ≥
          textCount s.text + 1 := by
        have hout : (store stringOutput .queries r.1 s.encoder).ctx.out .queries =
            s.text ++ r.1 := by
          simp [store, isMap, stringOutput, appendTo, QueriesState.text]
        rw [hout, textCount_append, hchars, textCount_cons]
        exact Nat.add_le_add_left (Nat.le_add_right 1 _) _
      have hmap : store segregatedOutput .queries r.1 t.encoder = t.encoder := rfl
      have hcount := h.count
      by_cases hgo : r.2.2 = true ∨ o.allowInvalidCharacters = true
      · obtain ⟨s', hs, hspos, hsout, -, -⟩ := leads_of_escape stringOutput_storesQuery
          (queryPercentEncodeSet scheme) hpos hr hgo
        obtain ⟨t', ht, htpos, htout, htbuf, -⟩ := leads_of_escape segregatedOutput_storesQuery
          (queryPercentEncodeSet scheme) hpos' hr hgo
        refine .inl ⟨s', t', hs, ht, ?_, htpos.trans hspos.symm, ?_⟩
        · rw [hspos, hpos]
          exact Nat.lt_succ_of_le hlen
        · rw [QueriesState.pairs, htout, htbuf, hmap, QueriesState.text, hsout]
          exact (Nat.add_le_add_right hcount 1).trans htext
      · rw [not_or, Bool.not_eq_true, Bool.not_eq_true] at hgo
        obtain ⟨x, hx, hxout⟩ := ends_of_escape stringOutput_storesQuery
          (queryPercentEncodeSet scheme) hpos hr hgo.1 hgo.2
        obtain ⟨y, hy, hyout⟩ := ends_of_escape segregatedOutput_storesQuery
          (queryPercentEncodeSet scheme) hpos' hr hgo.1 hgo.2
        refine .inr ⟨_, _, hx, hy, .ok ?_⟩
        show pairsCount y.out.queries + (d + 1) ≤ textCount (x.out .queries)
        rw [hyout, hmap, hxout]
        have hpairs : pairsCount t.encoder.ctx.out.queries + d ≤ textCount s.text :=
          (Nat.add_le_add_right (Nat.le_add_right _ _) d).trans hcount
        exact (Nat.add_le_add_right hpairs 1).trans htext

variable (scheme) in
theorem Behind.kept (h : Behind d s t) (hpos : s.pos = c :: pos)
    (hc : isQuestionable o c = true) (hi : o.ignoreTabsOrNewlines = false)
    (ha : o.allowInvalidCharacters = true) : StaysBehind o scheme (d + 1) s t := by
  obtain ⟨s', hs⟩ := writes_kept (queryPercentEncodeSet scheme) hpos hc hi ha
  obtain ⟨t', ht⟩ := fills_kept (queryPercentEncodeSet scheme) (h.pos.trans hpos) hc
    hi ha
  have hone : textCount [c] = 1 := by
    simp [isQuestionable, isTabOrNewline] at hc
    rcases hc with ((rfl | rfl) | rfl) | ⟨rfl, _⟩ <;> rfl
  refine .inl ⟨s', t', hs.leads, ht.leads, ?_, ht.pos.trans hs.pos.symm, ?_⟩
  · rw [hs.pos, hpos]
    exact Nat.lt_succ_self _
  · rw [ht.pairs, ht.buffer, hs.text, textCount_append, hone]
    exact Nat.add_le_add_right h.count 1

theorem StaysBehind.mono (h : StaysBehind o scheme (d + 1) s t) : StaysBehind o scheme d s t := by
  have hmono : ∀ s t, Behind (d + 1) s t → Behind d s t := fun s t h =>
    ⟨h.pos, (Nat.add_le_add_left (Nat.le_succ d) _).trans h.count⟩
  rcases h with ⟨s', t', hs, ht, hlt, h⟩ | ⟨x, y, hx, hy, h⟩
  · exact .inl ⟨s', t', hs, ht, hlt, hmono s' t' h⟩
  · refine .inr ⟨x, y, hx, hy, h.mono ?_⟩
    intro a b hab
    cases a with
    | broke s =>
        cases b with
        | broke t => exact hmono s t hab
        | returned ctx => exact hab
    | returned ctx =>
        cases b with
        | broke t => exact hab
        | returned ctx' =>
            exact (Nat.add_le_add_left (Nat.le_succ d) _).trans hab

theorem Behind.text (h : Behind d s t) (hpos : s.pos = c :: pos)
    (hc : isTextStop c = false) : StaysBehind o scheme d s t := by
  obtain ⟨s', hs⟩ := writes_plain o (queryPercentEncodeSet scheme) hpos hc
  have hlt : s'.pos.length < s.pos.length := by
    rw [hs.pos, hpos]
    exact Nat.lt_succ_self _
  have hpos' := h.pos.trans hpos
  by_cases hsep : c = '=' ∨ c = '&'
  · -- a separator counts nowhere
    have htext : textCount s'.text = textCount s.text := by
      rw [hs.text, encodeUriChar_separator scheme hsep, textCount_append]
      rcases hsep with rfl | rfl <;> rfl
    rcases hsep with rfl | rfl
    · obtain ⟨t', ht⟩ := fills_eq o (queryPercentEncodeSet scheme) hpos'
      refine .inl ⟨s', t', hs.leads, ht.leads, hlt, ht.pos.trans hs.pos.symm, ?_⟩
      have hbuf : pairCount t'.encoder.buffer = pairCount t.encoder.buffer := by
        rw [ht.buffer]
        split
        · rw [pairCount, textCount_append]
          rfl
        · rfl
      rw [htext, ht.pairs, hbuf]
      exact h.count
    · obtain ⟨t', ht⟩ := fills_amp o (queryPercentEncodeSet scheme) hpos'
      refine .inl ⟨s', t', hs.leads, ht.leads, hlt, ht.pos.trans hs.pos.symm, ?_⟩
      have hpairs : pairsCount t'.pairs ≤ pairsCount t.pairs + pairCount t.encoder.buffer := by
        rw [ht.pairs]
        split
        · exact pairsCount_emplaceNew_le _ _
        · exact Nat.le_add_right _ _
      rw [htext, ht.buffer]
      exact (Nat.add_le_add_right hpairs d).trans h.count
  · rw [not_or] at hsep
    obtain ⟨t', ht⟩ := fills_plain o (queryPercentEncodeSet scheme) hpos' hc
      hsep.1 hsep.2
    refine .inl ⟨s', t', hs.leads, ht.leads, hlt, ht.pos.trans hs.pos.symm, ?_⟩
    have hbuf : pairCount t'.encoder.buffer = pairCount t.encoder.buffer +
        textCount (encodeUriChar (queryPercentEncodeSet scheme) c) := by
      rw [ht.buffer]
      split
      · rw [pairCount, textCount_append, ← Nat.add_assoc]
        rfl
      · rw [pairCount, textCount_append, Nat.add_right_comm]
        rfl
    rw [ht.pairs, hbuf, hs.text, textCount_append, ← Nat.add_assoc, Nat.add_right_comm]
    exact Nat.add_le_add_right h.count _

theorem Behind.stop (h : Behind d s t) (hpos : s.pos = c :: pos)
    (hc : c = '#' ∨ c = '\x00' ∧ o.eofIsValid = true) : StaysBehind o scheme d s t := by
  obtain ⟨s', t', hs, ht, hpos', htext, hpairs, hbuf, -⟩ :=
    ends_of_stop_both (queryPercentEncodeSet scheme) hpos (h.pos.trans hpos) hc
  refine .inr ⟨_, _, hs, ht, .ok ⟨hpos', ?_⟩⟩
  rw [htext, hpairs, hbuf]
  exact h.count

theorem Behind.questionable (h : Behind d s t) (hpos : s.pos = c :: pos)
    (hc : isQuestionable o c = true) : StaysBehind o scheme d s t := by
  have hpos' := h.pos.trans hpos
  cases hi : o.ignoreTabsOrNewlines with
  | true =>
      obtain ⟨s', hs, hspos, hsout, -, -⟩ := leads_of_ignored stringOutput_storesQuery
        (queryPercentEncodeSet scheme) hpos hc hi
      obtain ⟨t', ht, htpos, htout, htbuf, -⟩ := leads_of_ignored segregatedOutput_storesQuery
        (queryPercentEncodeSet scheme) hpos' hc hi
      refine .inl ⟨s', t', hs, ht, ?_, htpos.trans hspos.symm, ?_⟩
      · rw [hspos, hpos]
        exact Nat.lt_succ_self _
      · rw [QueriesState.pairs, htout, htbuf, QueriesState.text, hsout]
        exact h.count
  | false =>
      cases ha : o.allowInvalidCharacters with
      | true => exact (h.kept scheme hpos hc hi ha).mono
      | false =>
          obtain ⟨x, hx, hxout⟩ := ends_of_refused stringOutput_storesQuery
            (queryPercentEncodeSet scheme) hpos hc hi ha
          obtain ⟨y, hy, hyout⟩ := ends_of_refused segregatedOutput_storesQuery
            (queryPercentEncodeSet scheme) hpos' hc hi ha
          refine .inr ⟨_, _, hx, hy, .ok ?_⟩
          show pairsCount y.out.queries + d ≤ textCount (x.out .queries)
          rw [hyout, hxout]
          exact (Nat.add_le_add_right (Nat.le_add_right _ _) d).trans h.count

variable (scheme) in
theorem Behind.round (h : Behind d s t) : StaysBehind o scheme d s t := by
  cases hpos : s.pos with
  | nil =>
      exact .inr ⟨_, _, endsWith_of_done (queriesStep_nil stringOutput_storesQuery o _ hpos),
        endsWith_of_done (queriesStep_nil segregatedOutput_storesQuery o _ (h.pos.trans hpos)),
        .ok h⟩
  | cons c pos =>
      cases hc : isTextStop c with
      | false => exact h.text hpos hc
      | true =>
          have hmem : c ∈ ['#', '%', '\r', '\n', '\t', '\x00'] :=
            List.contains_iff_mem.mp hc
          by_cases hesc : c = '%'
          · exact (h.escape scheme (hesc ▸ hpos)).mono
          · by_cases hstop : c = '#' ∨ c = '\x00' ∧ o.eofIsValid = true
            · exact h.stop hpos hstop
            · refine h.questionable hpos ?_
              simp [isQuestionable, isTabOrNewline] at hmem hstop ⊢
              tauto

variable (scheme) in
theorem Behind.run (h : Behind d s t) :
    ∃ x y, Ends o stringOutput (queryPercentEncodeSet scheme) s x ∧
      Ends o segregatedOutput (queryPercentEncodeSet scheme) t y ∧
      Related (EndsBehind d) x y := by
  have hlen : ∀ n s t, s.pos.length < n → Behind d s t →
      ∃ x y, Ends o stringOutput (queryPercentEncodeSet scheme) s x ∧
        Ends o segregatedOutput (queryPercentEncodeSet scheme) t y ∧
        Related (EndsBehind d) x y := by
    intro n
    induction n with
    | zero => exact fun s t hlt _ => absurd hlt (Nat.not_lt_zero _)
    | succ n ih =>
        intro s t hlt h
        rcases h.round (o := o) scheme with ⟨s', t', hs, ht, hlt', h'⟩ | h
        · obtain ⟨x, y, hx, hy, hxy⟩ :=
            ih s' t' (Nat.lt_of_lt_of_le hlt' (Nat.le_of_lt_succ hlt)) h'
          exact ⟨x, y, hs.ends hx, ht.ends hy, hxy⟩
        · exact h
  exact hlen (s.pos.length + 1) s t (Nat.lt_succ_self _) h

theorem StaysBehind.run (h : StaysBehind o scheme d s t) :
    ∃ x y, Ends o stringOutput (queryPercentEncodeSet scheme) s x ∧
      Ends o segregatedOutput (queryPercentEncodeSet scheme) t y ∧
      Related (EndsBehind d) x y := by
  rcases h with ⟨s', t', hs, ht, -, h⟩ | h
  · obtain ⟨x, y, hx, hy, hxy⟩ := h.run (o := o) scheme
    exact ⟨x, y, hs.ends hx, ht.ends hy, hxy⟩
  · exact h

end Behind

/-! ## The two parses of a query text -/

/-- The context of a query text. -/
def queryCtx (scheme : SchemeType) (q : List Char) (out : σ) : Ctx σ where
  beg := q
  pos := q
  out := out
  status := ⟨.validQueries, ∅⟩
  scheme := scheme

def Segregated.empty : Segregated := ⟨fun _ => [], fun _ => [], []⟩

/-- The text that `parse_queries` stores in a context of strings. -/
def queriesText (o : Options) (scheme : SchemeType) (q : List Char) : Run (List Char) := do
  let ctx ← parseQueries o stringOutput (queryCtx scheme q fun _ => [])
  pure (ctx.out .queries)

/-- The pairs that `parse_queries` stores in a segregated context. -/
def queriesPairs (o : Options) (scheme : SchemeType) (q : List Char) :
    Run (List (List Char × List Char)) := do
  let ctx ← parseQueries o segregatedOutput (queryCtx scheme q Segregated.empty)
  pure ctx.out.queries

/-- The names and values of a text. An empty piece, or a lone `=`, is no pair. -/
def filledFields (text : List Char) : List (List Char × List Char) :=
  (splitFields text).filter isFilled

/-- The pairs of the segregated parse are the fields of the stored text, in some order. -/
def SplitsAlike (o : Options) (scheme : SchemeType) (q : List Char) : Prop :=
  ∃ text pairs, queriesText o scheme q = .ok text ∧ queriesPairs o scheme q = .ok pairs ∧
    pairs.Perm (filledFields text)

/-- The names in a query text, as it is stored, are different. -/
def DistinctNames (o : Options) (scheme : SchemeType) (q : List Char) : Prop :=
  ∀ text, queriesText o scheme q = .ok text → ((filledFields text).map Prod.fst).Nodup

/-- What follows the sound characters of a query text makes no difference between the
parses: nothing follows, or an end of the text, or a refused character that leaves only
a blank field unfinished. -/
def EndsSound (o : Options) (run : List Char) : List Char → Prop
  | [] => True
  | c :: _ =>
      c = '#' ∨ c = '\x00' ∧ o.eofIsValid = true ∨
        isQuestionable o c = true ∧ o.allowInvalidCharacters = false ∧
          (lastField run = [] ∨ lastField run = ['='])

/-- No escape, and no other character that only the text keeps, is read. -/
def Lossless (o : Options) (q : List Char) : Prop :=
  o.parseQueries = true →
    EndsSound o (q.takeWhile (isSound o)) (q.dropWhile (isSound o))

section Ends

variable {o : Options} {scheme : SchemeType}

theorem queriesEnd_eq (hO : StoresQuery O) (s : QueriesState σ) :
    ∃ e, queriesEnd O s = .ok (nextQuery O .queries e).ctx ∧ e.ctx.out = s.encoder.ctx.out ∧
      e.buffer = s.encoder.buffer := by
  have hvalue : setQueryValue O s.encoder = s.encoder := by
    rw [setQueryValue, if_pos hO.isModifiable]
  have hname : setQueryName O s.encoder = s.encoder := by
    rw [setQueryName, if_pos hO.isModifiable]
  cases hpos : s.encoder.ctx.pos with
  | nil =>
      refine ⟨s.encoder.setValid .valid, ?_, rfl, rfl⟩
      simp [queriesEnd, hvalue, hname, ComponentEncoder.setValue, setValueOf, hO.isModifiable,
        hpos]
      rfl
  | cons c pos =>
      refine ⟨s.encoder.setPos pos, ?_, rfl, rfl⟩
      simp [queriesEnd, hvalue, hname, ComponentEncoder.setValue, setValueOf, hO.isModifiable,
        hpos, ignoreCharacter]

theorem queriesEnd_text (s : QueriesState Strings) :
    ∃ ctx, queriesEnd stringOutput s = .ok ctx ∧ ctx.out .queries = s.text := by
  obtain ⟨e, h, hout, -⟩ := queriesEnd_eq stringOutput_storesQuery s
  exact ⟨_, h, congrFun hout .queries⟩

theorem queriesEnd_pairs (t : QueriesState Segregated) :
    ∃ ctx, queriesEnd segregatedOutput t = .ok ctx ∧ ctx.out.queries =
      if isFilled t.encoder.buffer then emplaceNew t.pairs t.encoder.buffer else t.pairs := by
  obtain ⟨e, h, hout, hbuf⟩ := queriesEnd_eq segregatedOutput_storesQuery t
  refine ⟨_, h, ?_⟩
  rw [(nextQuery_segregated e).2.1, hout, hbuf]
  rfl

theorem exists_ends_exact (h : Exact s t done field) :
    ∃ ctx ctx', queriesEnd stringOutput s = .ok ctx ∧ queriesEnd segregatedOutput t = .ok ctx' ∧
      ctx'.out.queries = insertAll (splitFields (ctx.out .queries)) := by
  obtain ⟨ctx, hctx, htext⟩ := queriesEnd_text s
  obtain ⟨ctx', hctx', hpairs⟩ := queriesEnd_pairs t
  refine ⟨ctx, ctx', hctx, hctx', ?_⟩
  rw [hpairs, htext, h.reading.splitFields_eq, insertAll_append_singleton, h.pairs, h.buffer]

theorem not_perm_of_count {pairs : List (List Char × List Char)} {text : List Char} {d : ℕ}
    (h : pairsCount pairs + (d + 1) ≤ textCount text) : ¬ pairs.Perm (filledFields text) := by
  intro hperm
  have hcount := pairsCount_perm hperm
  rw [filledFields, pairsCount_filter_isFilled, pairsCount_splitFields] at hcount
  rw [hcount] at h
  exact Nat.not_succ_le_self _ ((Nat.add_le_add_left (Nat.le_add_left 1 d) _).trans h)

/-- The parse of a text that is not empty, from the loop's end. -/
theorem parseQueries_of_ends (out : σ) (hq : q ≠ [])
    (ho : o.parseQueries = true) {x : Run (QueriesExit σ)}
    (h : Ends o O (queryPercentEncodeSet scheme) ⟨ofCtx (queryCtx scheme q out), false⟩ x) :
    parseQueries o O (queryCtx scheme q out) = x >>= fun exit =>
      match exit with
      | .broke s => queriesEnd O s
      | .returned ctx => pure ctx := by
  have hloop := h (q.length + 1) (Nat.lt_succ_self _)
  rw [parseQueries, if_pos ho, if_neg (show (queryCtx scheme q out).pos ≠ [] from hq)]
  exact congrArg (· >>= _) hloop

theorem parseQueries_of_broke (out : σ) (hq : q ≠ [])
    (ho : o.parseQueries = true) {s : QueriesState σ}
    (h : Ends o O (queryPercentEncodeSet scheme) ⟨ofCtx (queryCtx scheme q out), false⟩
      (.ok (.broke s))) :
    parseQueries o O (queryCtx scheme q out) = queriesEnd O s :=
  parseQueries_of_ends out hq ho h

theorem splitsAlike_iff {ctx' : Ctx Segregated}
    (h : parseQueries o stringOutput (queryCtx scheme q fun _ => []) = .ok ctx)
    (h' : parseQueries o segregatedOutput (queryCtx scheme q Segregated.empty) = .ok ctx') :
    SplitsAlike o scheme q ↔ ctx'.out.queries.Perm (filledFields (ctx.out .queries)) := by
  have htext : queriesText o scheme q = .ok (ctx.out .queries) := by
    rw [queriesText, h]
    rfl
  have hpairs : queriesPairs o scheme q = .ok ctx'.out.queries := by
    rw [queriesPairs, h']
    rfl
  constructor
  · rintro ⟨text, pairs, ht, hp, hperm⟩
    rw [htext] at ht
    rw [hpairs] at hp
    cases ht
    cases hp
    exact hperm
  · intro hperm
    exact ⟨_, _, htext, hpairs, hperm⟩

theorem DistinctNames.nodup (hnames : DistinctNames o scheme q)
    (h : parseQueries o stringOutput (queryCtx scheme q fun _ => []) = .ok ctx) :
    ((filledFields (ctx.out .queries)).map Prod.fst).Nodup := by
  refine hnames _ ?_
  rw [queriesText, h]
  rfl

theorem splitsAlike_of_unread (h : o.parseQueries = false ∨ q = []) :
    SplitsAlike o scheme q := by
  have hout : ∀ {σ : Type} (O : Output σ) (out : σ),
      ∃ ctx, parseQueries o O (queryCtx scheme q out) = .ok ctx ∧ ctx.out = out := by
    intro σ O out
    rw [parseQueries]
    rcases h with h | h
    · rw [if_neg (by rw [h]; exact Bool.false_ne_true)]
      split
      · exact ⟨_, rfl, rfl⟩
      · split
        · exact ⟨_, rfl, rfl⟩
        · exact ⟨_, rfl, rfl⟩
    · have hpos : (queryCtx scheme q out).pos = [] := h
      rw [if_pos hpos, if_pos hpos]
      split
      · exact ⟨_, rfl, rfl⟩
      · exact ⟨_, rfl, rfl⟩
  obtain ⟨ctx, hctx, hout1⟩ := hout stringOutput fun _ => []
  obtain ⟨ctx', hctx', hout2⟩ := hout segregatedOutput Segregated.empty
  rw [splitsAlike_iff hctx hctx', hout1, hout2]
  exact .refl _

section Read

variable {q : List Char} (hq : q ≠ []) (ho : o.parseQueries = true)
include hq ho

theorem splitsAlike_of_exact (hnames : DistinctNames o scheme q) (h : Exact s t done field)
    (hs : Ends o stringOutput (queryPercentEncodeSet scheme)
      ⟨ofCtx (queryCtx scheme q fun _ => []), false⟩ (.ok (.broke s)))
    (ht : Ends o segregatedOutput (queryPercentEncodeSet scheme)
      ⟨ofCtx (queryCtx scheme q Segregated.empty), false⟩ (.ok (.broke t))) :
    SplitsAlike o scheme q := by
  obtain ⟨ctx, ctx', hctx, hctx', hpairs⟩ := exists_ends_exact h
  have hparse := parseQueries_of_broke _ hq ho hs
  have hparse' := parseQueries_of_broke _ hq ho ht
  rw [hctx] at hparse
  rw [hctx'] at hparse'
  rw [splitsAlike_iff hparse hparse', hpairs, insertAll_eq (hnames.nodup hparse)]
  exact .refl _

theorem not_splitsAlike_of_behind {d : ℕ} {x : Run (QueriesExit Strings)}
    {y : Run (QueriesExit Segregated)} (h : Related (EndsBehind (d + 1)) x y)
    (hs : Ends o stringOutput (queryPercentEncodeSet scheme)
      ⟨ofCtx (queryCtx scheme q fun _ => []), false⟩ x)
    (ht : Ends o segregatedOutput (queryPercentEncodeSet scheme)
      ⟨ofCtx (queryCtx scheme q Segregated.empty), false⟩ y) :
    ¬ SplitsAlike o scheme q := by
  have hparse := parseQueries_of_ends _ hq ho hs
  have hparse' := parseQueries_of_ends _ hq ho ht
  cases h with
  | error e =>
      rintro ⟨text, -, htext, -⟩
      rw [queriesText, hparse] at htext
      cases htext
  | @ok a b hab =>
      cases a with
      | broke s =>
          cases b with
          | returned ctx => exact hab.elim
          | broke t =>
              obtain ⟨ctx, hctx, htext⟩ := queriesEnd_text s
              obtain ⟨ctx', hctx', hpairs⟩ := queriesEnd_pairs t
              have hparse := parseQueries_of_broke _ hq ho hs
              have hparse' := parseQueries_of_broke _ hq ho ht
              rw [hctx] at hparse
              rw [hctx'] at hparse'
              have hle : pairsCount ctx'.out.queries ≤
                  pairsCount t.pairs + pairCount t.encoder.buffer := by
                rw [hpairs]
                split
                · exact pairsCount_emplaceNew_le _ _
                · exact Nat.le_add_right _ _
              rw [splitsAlike_iff hparse hparse', htext]
              exact not_perm_of_count ((Nat.add_le_add_right hle _).trans hab.count)
      | returned ctx =>
          cases b with
          | broke t => exact hab.elim
          | returned ctx' =>
              rw [splitsAlike_iff hparse hparse']
              exact not_perm_of_count hab

theorem splitsAlike_of_refused (hnames : DistinctNames o scheme q) (h : Exact s t done field)
    {ctx' : Ctx Segregated} (hs : Ends o stringOutput (queryPercentEncodeSet scheme)
      ⟨ofCtx (queryCtx scheme q fun _ => []), false⟩ (.ok (.returned ctx)))
    (ht : Ends o segregatedOutput (queryPercentEncodeSet scheme)
      ⟨ofCtx (queryCtx scheme q Segregated.empty), false⟩ (.ok (.returned ctx')))
    (hout : ctx.out = s.encoder.ctx.out) (hout' : ctx'.out = t.encoder.ctx.out) :
    SplitsAlike o scheme q ↔ isFilled (splitField field) = false := by
  have hparse := parseQueries_of_ends _ hq ho hs
  have hparse' := parseQueries_of_ends _ hq ho ht
  rw [ok_bind] at hparse hparse'
  have htext : ctx.out .queries = s.text := congrFun hout .queries
  have hnodup := hnames.nodup hparse
  have hfields : filledFields (ctx.out .queries) =
      (done.map splitField).filter isFilled ++ [splitField field].filter isFilled := by
    rw [htext, filledFields, h.reading.splitFields_eq, List.filter_append]
  rw [hfields, List.map_append, List.nodup_append] at hnodup
  rw [splitsAlike_iff hparse hparse', hout', hfields]
  show t.pairs.Perm _ ↔ _
  rw [h.pairs, insertAll_eq hnodup.1]
  cases hfilled : isFilled (splitField field) with
  | false =>
      rw [List.filter_cons_of_neg (by rw [hfilled]; exact Bool.false_ne_true),
        List.filter_nil, List.append_nil]
      exact iff_of_true (.refl _) rfl
  | true =>
      refine iff_of_false (fun hperm => ?_) Bool.true_eq_false.mp
      have hlen := hperm.length_eq
      rw [List.length_append, List.filter_cons_of_pos hfilled] at hlen
      exact Nat.succ_ne_self _ hlen.symm

end Read

theorem exact_start (q : List Char) :
    Exact ⟨ofCtx (queryCtx scheme q fun _ => []), false⟩
      ⟨ofCtx (queryCtx scheme q Segregated.empty), false⟩ [] [] :=
  ⟨rfl, .nil, rfl, rfl, rfl⟩

theorem isFilled_of_run {text run : List Char}
    (h : Reading text done field) (htext : text = run.flatMap (soundText scheme))
    (hrun : ∀ c ∈ run, isTextStop c = false) :
    isFilled (splitField field) = false ↔ lastField run = [] ∨ lastField run = ['='] := by
  rw [isFilled_splitField_eq_false, ← h.last, htext, lastField_flatMap]
  exact flatMap_soundText_blank scheme fun c hc => hrun c (mem_of_mem_lastField hc)

section Rest

variable {q : List Char} (hq : q ≠ []) (ho : o.parseQueries = true)
  {s : QueriesState Strings}
  {t : QueriesState Segregated} {done : List (List Char)} {field : List Char}
  (h : Exact s t done field)
  (hs : Leads o stringOutput (queryPercentEncodeSet scheme)
    ⟨ofCtx (queryCtx scheme q fun _ => []), false⟩ s)
  (ht : Leads o segregatedOutput (queryPercentEncodeSet scheme)
    ⟨ofCtx (queryCtx scheme q Segregated.empty), false⟩ t)
include hq ho h hs ht

theorem splitsAlike_at_rest {rest run : List Char} (hpos : s.pos = c :: rest)
    (hc : isSound o c = false) (htext : s.text = run.flatMap (soundText scheme))
    (hrun : ∀ c ∈ run, isSound o c = true) (hnames : DistinctNames o scheme q) :
    SplitsAlike o scheme q ↔ EndsSound o run (c :: rest) := by
  have hpos' := h.pos.trans hpos
  rw [isSound, Bool.or_eq_false_iff, Bool.not_eq_false', Bool.and_eq_false_imp] at hc
  by_cases hstop : c = '#' ∨ c = '\x00' ∧ o.eofIsValid = true
  · refine iff_of_true ?_ (hstop.imp_right .inl)
    obtain ⟨s', t', hs', ht', hpos'', htext', hpairs, hbuf, hin⟩ :=
      ends_of_stop_both (queryPercentEncodeSet scheme) hpos hpos' hstop
    exact splitsAlike_of_exact hq ho hnames ⟨hpos'', htext' ▸ h.reading,
      hpairs.trans h.pairs, hbuf.trans h.buffer, hin.trans h.inValue⟩ (hs.ends hs')
      (ht.ends ht')
  by_cases hesc : c = '%'
  · obtain ⟨x, y, hx, hy, hxy⟩ :=
      (h.behind.escape (o := o) scheme (hesc ▸ hpos)).run
    refine iff_of_false (not_splitsAlike_of_behind hq ho hxy (hs.ends hx) (ht.ends hy)) ?_
    rintro (h | h | ⟨h, -⟩)
    · exact hstop (.inl h)
    · exact hstop (.inr h)
    · rw [hesc] at h
      simp [isQuestionable, isTabOrNewline] at h
  have hq' : isQuestionable o c = true := by
    have hmem : c ∈ ['#', '%', '\r', '\n', '\t', '\x00'] := List.contains_iff_mem.mp hc.1
    simp [isQuestionable, isTabOrNewline] at hmem hstop ⊢
    tauto
  have hi : o.ignoreTabsOrNewlines = false := hc.2 hq'
  cases ha : o.allowInvalidCharacters with
  | true =>
      obtain ⟨x, y, hx, hy, hxy⟩ := (h.behind.kept scheme hpos hq' hi ha).run
      refine iff_of_false (not_splitsAlike_of_behind hq ho hxy (hs.ends hx) (ht.ends hy)) ?_
      rintro (h | h | ⟨-, h, -⟩)
      · exact hstop (.inl h)
      · exact hstop (.inr h)
      · rw [ha] at h
        cases h
  | false =>
      obtain ⟨ctx, hx, hout⟩ := ends_of_refused stringOutput_storesQuery
        (queryPercentEncodeSet scheme) hpos hq' hi ha
      obtain ⟨ctx', hy, hout'⟩ := ends_of_refused segregatedOutput_storesQuery
        (queryPercentEncodeSet scheme) hpos' hq' hi ha
      have hsound : ∀ c ∈ run, isTextStop c = false := by
        intro c hc
        have h := hrun c hc
        rw [isSound, hi, Bool.and_false, Bool.or_false, Bool.not_eq_true'] at h
        exact h
      rw [splitsAlike_of_refused hq ho hnames h (hs.ends hx) (ht.ends hy) hout hout',
        isFilled_of_run h.reading htext hsound]
      constructor
      · exact fun h => .inr (.inr ⟨hq', ha, h⟩)
      · rintro (h | h | ⟨-, -, h⟩)
        · exact absurd (.inl h) hstop
        · exact absurd (.inr h) hstop
        · exact h

end Rest

/-- The map of the segregated parse holds the fields of the stored text exactly if the
query text is lossless. -/
theorem parseQueries_splitsAlike_iff (o : Options) (scheme : SchemeType) (q : List Char)
    (hnames : DistinctNames o scheme q) : SplitsAlike o scheme q ↔ Lossless o q := by
  by_cases hread : o.parseQueries = false ∨ q = []
  · refine iff_of_true (splitsAlike_of_unread hread) fun ho => ?_
    rcases hread with h | rfl
    · rw [h] at ho
      cases ho
    · trivial
  rw [not_or, Bool.not_eq_false] at hread
  obtain ⟨ho, hq⟩ := hread
  have hsplit : q = q.takeWhile (isSound o) ++ q.dropWhile (isSound o) :=
    List.takeWhile_append_dropWhile.symm
  have hrun : ∀ c ∈ q.takeWhile (isSound o), isSound o c = true := fun c hc =>
    List.mem_takeWhile_imp hc
  obtain ⟨s, t, done, field, hs, ht, hpos, htext, h⟩ :=
    (exact_start q).run scheme hsplit hrun
  rw [Lossless]
  simp only [ho, forall_const]
  cases hrest : q.dropWhile (isSound o) with
  | nil =>
      rw [hrest] at hpos
      refine iff_of_true (splitsAlike_of_exact hq ho hnames h ?_ ?_) trivial
      · exact hs.ends (endsWith_of_done (queriesStep_nil stringOutput_storesQuery o _ hpos))
      · exact ht.ends (endsWith_of_done (queriesStep_nil segregatedOutput_storesQuery o _
          (h.pos.trans hpos)))
  | cons c rest =>
      rw [hrest] at hpos
      have hc : isSound o c = false := by
        have hhead := List.head_dropWhile_not (isSound o) (l := q) (by rw [hrest]; simp)
        simpa [hrest] using hhead
      exact splitsAlike_at_rest hq ho h hs ht hpos hc htext hrun hnames

end Ends

/-- A query text with two names. -/
theorem parseQueries_splitsAlike_two :
    SplitsAlike standardUriParsingOptions .notSpecial "a=1&b=2".toList ↔
      Lossless standardUriParsingOptions "a=1&b=2".toList := by
  refine parseQueries_splitsAlike_iff standardUriParsingOptions .notSpecial "a=1&b=2".toList ?_
  intro text h
  have htext : queriesText standardUriParsingOptions .notSpecial "a=1&b=2".toList =
      .ok "a=1&b=2".toList := by rfl
  rw [htext] at h
  cases h
  decide

/-- The valid escape `%41` is lost in the map. -/
theorem parseQueries_not_splitsAlike :
    DistinctNames standardUriParsingOptions .notSpecial "a=%41".toList ∧
      ¬ SplitsAlike standardUriParsingOptions .notSpecial "a=%41".toList := by
  have htext : queriesText standardUriParsingOptions .notSpecial "a=%41".toList =
      .ok "a=%41".toList := by rfl
  have hpairs : queriesPairs standardUriParsingOptions .notSpecial "a=%41".toList =
      .ok [("a".toList, [])] := by rfl
  constructor
  · intro text h
    rw [htext] at h
    cases h
    decide
  · rintro ⟨text, pairs, ht, hp, hperm⟩
    rw [htext] at ht
    rw [hpairs] at hp
    cases ht
    cases hp
    exact absurd hperm (by decide)

end Webpp.Uri
