import Webpp.Foundation.Loop
import Webpp.Http.Cookie

/-!
# `request_cookie_jar::parse`

The parser of a `Cookie` header goes on for as long as something is left of the source,
whether or not it has read anything. Each iteration moves on unless the source begins with
a character that is in no set of the parser; then the parser never ends.
-/

namespace Webpp.Http

open Loop

variable {rest : List Char} {c : Char} {valid : Char → Bool}

/-- A cookie of a jar, its name and its value. -/
abbrev RequestCookie := List Char × List Char

/-- What one iteration makes of the source: a cookie, and what is left behind a `;`. -/
def parseIteration (source : List Char) : SePair :=
  let p := parseSeValue ⟨source, [], [], true⟩
  { p with str := lremove ';' p.str }

/-- The source that is left, and the jar. -/
structure JarState where
  source : List Char
  jar : List RequestCookie

/-- One round of the loop of `request_cookie_jar::parse`. -/
def parseStep (s : JarState) : Except Unit (Flow JarState (Bool × List RequestCookie)) :=
  let p := parseIteration s.source
  if p.valid then
    let jar := s.jar ++ [(trim p.name, trim p.value)]
    if p.str = [] then pure (.done (true, jar)) else pure (.next ⟨p.str, jar⟩)
  else pure (.done (false, s.jar))

/-- `request_cookie_jar::parse`, for at most `n` rounds. -/
def parse (n : ℕ) (jar : List RequestCookie) (source : List Char) :
    Except Unit (Bool × List RequestCookie) :=
  loop parseStep () n ⟨source, jar⟩

/-! ## Progress -/

/-- A character that some part of the parser moves over. -/
def isCookieChar (c : Char) : Bool :=
  isWhitespace c || validCookieValue c || c == '"' || c == ';'

/-- The source does not begin with a character that nothing moves over. -/
def Consumable (source : List Char) : Prop :=
  ∀ c rest, source = c :: rest → isCookieChar c = true

theorem isWhitespace_of_ltrim (h : ltrim (c :: rest) = c :: rest) :
    isWhitespace c = false := by
  rw [← Bool.not_eq_true]
  intro hc
  rw [ltrim, List.dropWhile_cons_of_pos hc] at h
  have hle := (List.dropWhile_suffix (l := rest) isWhitespace).length_le
  rw [h] at hle
  exact absurd hle (Nat.not_succ_le_self _)

theorem ne_of_lremove {char c : Char} (h : lremove char (c :: rest) = c :: rest) : c ≠ char := by
  intro hc
  rw [lremove, if_pos hc] at h
  exact absurd h.symm (List.cons_ne_self c rest)

/-- Where an iteration leaves the source as it is, no part of the parser moves over the
first character. -/
theorem isCookieChar_of_stuck (hvalid : (parseIteration (c :: rest)).valid = true)
    (h : (parseIteration (c :: rest)).str = c :: rest) : isCookieChar c = false := by
  have htrim : ltrim (c :: rest) <:+ c :: rest := List.dropWhile_suffix _
  have hname := parseSeName_suffix ⟨c :: rest, [], [], true⟩
  generalize hp : parseSeName ⟨c :: rest, [], [], true⟩ = p at hname
  have hskip := skipEquals_suffix p.str
  have hvalue := parseValue_suffix p (skipEquals p.str)
  rw [parseIteration, parseSeValue] at h hvalid
  rw [hp] at h hvalid
  simp only at h hvalid
  cases hpv : p.valid with
  | false =>
      rw [hpv, if_neg Bool.false_ne_true, hpv] at hvalid
      exact absurd hvalid Bool.false_ne_true
  | true =>
      rw [hpv, if_pos rfl] at h hvalid
      have hremove := lremove_suffix ';' (parseValue p (skipEquals p.str)).str
      rw [h] at hremove
      -- the source is a suffix of all that is made of it
      have hvalue' := (hvalue.trans (hskip.trans (hname.trans htrim))).eq_of_length_le
        hremove.length_le
      have hskip' := (hskip.trans (hname.trans htrim)).eq_of_length_le
        (hremove.trans hvalue).length_le
      have htrim' := htrim.eq_of_length_le
        (hremove.trans (hvalue.trans (hskip.trans hname))).length_le
      rw [hskip'] at hvalid hvalue' h
      rw [hvalue'] at h
      obtain ⟨hquote, hchar⟩ := parseValue_stuck hvalid hvalue'
      rw [isCookieChar, isWhitespace_of_ltrim htrim', hchar, beq_false_of_ne hquote,
        beq_false_of_ne (ne_of_lremove h)]
      rfl

theorem parseIteration_suffix (source : List Char) : (parseIteration source).str <:+ source :=
  (lremove_suffix _ _).trans ((parseSeValue_suffix _).trans
    ((parseSeName_suffix _).trans (List.dropWhile_suffix _)))

theorem parseIteration_lt {source : List Char} (hcons : Consumable source)
    (hvalid : (parseIteration source).valid = true) :
    (parseIteration source).str.length < source.length := by
  have hsuffix := parseIteration_suffix source
  by_contra hlt
  have hstuck := hsuffix.eq_of_length_le (Nat.le_of_not_lt hlt)
  cases source with
  | nil => exact absurd hvalid Bool.false_ne_true
  | cons c rest =>
      have hc := isCookieChar_of_stuck hvalid hstuck
      rw [hcons c rest rfl] at hc
      exact absurd hc.symm Bool.false_ne_true

theorem parseIteration_dead (hc : isCookieChar c = false) (rest : List Char) :
    parseIteration (c :: rest) = ⟨c :: rest, [], [], true⟩ := by
  rw [isCookieChar, Bool.or_eq_false_iff, Bool.or_eq_false_iff, Bool.or_eq_false_iff] at hc
  obtain ⟨⟨⟨hspace, hvalue⟩, hquote⟩, hsemicolon⟩ := hc
  have hname := validCookieName_of_value hvalue
  have hequals : c ≠ '=' := by
    rintro rfl
    exact absurd hvalue (by decide)
  have htrim : ltrim (c :: rest) = c :: rest :=
    List.dropWhile_cons_of_neg (by rw [hspace]; exact Bool.false_ne_true)
  have hskip : skipEquals (c :: rest) = c :: rest := by
    rw [skipEquals, htrim, lremove, if_neg hequals, htrim]
  have hquote' : (c :: rest).head? ≠ some '"' := fun h =>
    ne_of_beq_false hquote (Option.some_inj.mp h)
  have hparse : parseSeName ⟨c :: rest, [], [], true⟩ = ⟨c :: rest, [], [], true⟩ := by
    rw [parseSeName]
    simp only [htrim, List.dropWhile_cons, List.takeWhile_cons, hname, Bool.false_eq_true,
      if_false]
  rw [parseIteration, parseSeValue, hparse]
  simp only [if_true, hskip, parseValue, if_neg hquote', List.dropWhile_cons,
    List.takeWhile_cons, hvalue, Bool.false_eq_true, if_false, lremove,
    if_neg (ne_of_beq_false hsemicolon)]

theorem parse_dead (hc : isCookieChar c = false) (rest : List Char)
    (jar : List RequestCookie) (n : ℕ) : parse n jar (c :: rest) = .error () := by
  induction n generalizing jar with
  | zero => rfl
  | succ n ih =>
      have hround : parseStep ⟨c :: rest, jar⟩ =
          .ok (.next ⟨c :: rest, jar ++ [(trim [], trim [])]⟩) := by
        rw [parseStep, parseIteration_dead hc]
        rfl
      rw [parse, loop_of_next hround]
      exact ih _

/-! ## Termination -/

/-- The parser ends, has added at most one cookie for each character, and every iteration
that reads a cookie leaves less of the source. -/
structure ParsesInTime (jar : List RequestCookie) (source : List Char) : Prop where
  terminates : ∃ n r, parse n jar source = .ok r
  cookies : ∀ n r, parse n jar source = .ok r → r.2.length ≤ jar.length + source.length
  shortens : ∀ s, Reaches parseStep ⟨source, jar⟩ s → (parseIteration s.source).valid = true →
    (parseIteration s.source).str.length < s.source.length

theorem parseStep_sat {s : JarState} {bound : ℕ} (hcons : Consumable s.source)
    (hbound : s.jar.length + s.source.length ≤ bound) :
    Sat (fun _ => False) (FlowSat (fun s' => s'.jar.length + s'.source.length ≤ bound ∧
      s'.source.length < s.source.length) (fun r => r.2.length ≤ bound)) (parseStep s) := by
  rw [parseStep]
  split
  · rename_i hvalid
    have hlt := parseIteration_lt hcons hvalid
    have hjar : (s.jar ++ [(trim (parseIteration s.source).name,
        trim (parseIteration s.source).value)]).length +
        (parseIteration s.source).str.length ≤ bound := by
      rw [List.length_append, List.length_singleton, Nat.add_assoc, Nat.add_comm 1]
      exact (Nat.add_le_add_left (Nat.succ_le_of_lt hlt) _).trans hbound
    simp only
    split
    · exact (Nat.le_add_right _ _).trans hjar
    · exact ⟨hjar, hlt⟩
  · exact (Nat.le_add_right _ _).trans hbound

/-- `request_cookie_jar::parse` ends in time exactly when none of its iterations begins with
a character that nothing moves over. -/
theorem parse_inTime_iff (jar : List RequestCookie) (source : List Char) :
    ParsesInTime jar source ↔
      ∀ s, Reaches parseStep ⟨source, jar⟩ s → Consumable s.source := by
  constructor
  · intro h s hreach c rest hs
    rw [← Bool.not_eq_false]
    intro hc
    have hdead := parseIteration_dead hc rest
    have hlt := h.shortens s hreach
    rw [hs, hdead] at hlt
    exact absurd (hlt rfl) (Nat.lt_irrefl _)
  · intro h
    have hrun : ∀ n, source.length < n →
        Sat (fun _ => False) (fun r => r.2.length ≤ jar.length + source.length)
          (parse n jar source) := by
      intro n hn
      exact loop_sat (fun s => s.jar.length + s.source.length ≤ jar.length + source.length)
        (fun r => r.2.length ≤ jar.length + source.length) (fun s => s.source.length)
        (Nat.le_refl _) (fun s hreach hinv => parseStep_sat (h s hreach) hinv) hn
    refine ⟨⟨source.length + 1, ?_⟩, ?_, ?_⟩
    · obtain ⟨r, hr, -⟩ := (hrun _ (Nat.lt_succ_self _)).exists_ok
      exact ⟨r, hr⟩
    · intro n r hr
      have hmono := loop_mono hr (Nat.le_add_right n (source.length + 1))
      have hok := hrun (n + (source.length + 1)) (Nat.lt_add_left n (Nat.lt_succ_self _))
      rw [parse, hmono] at hok
      exact hok
    · intro s hreach hvalid
      exact parseIteration_lt (h s hreach) hvalid

/-- The source `,` is never left. -/
theorem parse_not_inTime : ¬ ∀ jar source, ParsesInTime jar source := by
  intro h
  obtain ⟨n, r, hr⟩ := (h [] [',']).terminates
  rw [parse_dead (by decide)] at hr
  cases hr

end Webpp.Http

/-!
# Headers that are written pair by pair

A `Cookie` header that is put together from pairs is read back by
`request_cookie_jar::parse` unless there are spaces between a value and the `;` behind it.
`lremove` takes the `;` away only where it is the very next character, so the spaces
begin a round of their own, which reads an empty cookie.
-/

namespace Webpp.Http

open Loop

/-! ## Pairs and their texts -/

def spaces (n : ℕ) : List Char := List.replicate n ' '

/-- A cookie as it is written in a header: its name, its value with or without quotes, and
the numbers of spaces around its `=` and around the `;` behind it. -/
structure CookiePair where
  name : List Char
  value : List Char
  quoted : Bool
  beforeEquals : ℕ
  afterEquals : ℕ
  beforeSeparator : ℕ
  afterSeparator : ℕ
  name_ne_nil : name ≠ []
  name_valid : ∀ c ∈ name, validCookieName c = true
  value_valid : ∀ c ∈ value, validCookieValue c = true

namespace CookiePair

def valueText (p : CookiePair) : List Char :=
  if p.quoted then '"' :: (p.value ++ ['"']) else p.value

def text (p : CookiePair) : List Char :=
  p.name ++ (spaces p.beforeEquals ++ '=' :: (spaces p.afterEquals ++ p.valueText))

def cookie (p : CookiePair) : RequestCookie := (p.name, p.value)

/-- Nothing is written for the value. -/
def Blank (p : CookiePair) : Prop := p.quoted = false ∧ p.value = []

/-- No spaces are left in front of the `;` once the value is read. -/
def Closed (p : CookiePair) : Prop := p.beforeSeparator = 0 ∨ p.Blank

instance (p : CookiePair) : Decidable p.Blank := inferInstanceAs (Decidable (_ ∧ _))

instance (p : CookiePair) : Decidable p.Closed := inferInstanceAs (Decidable (_ ∨ _))

end CookiePair

/-- The pairs joined by `;`. The spaces around a separator that is not there are not
written. -/
def cookieHeader : List CookiePair → List Char
  | [] => []
  | [p] => p.text
  | p :: q :: pairs =>
      p.text ++ (spaces p.beforeSeparator ++
        ';' :: (spaces p.afterSeparator ++ cookieHeader (q :: pairs)))

/-- The header is valid and its cookies are the pairs. -/
def ParsesBack (pairs : List CookiePair) : Prop :=
  ∃ n, parse n [] (cookieHeader pairs) = .ok (true, pairs.map CookiePair.cookie)

/-! ## Spaces and trimming -/

theorem isWhitespace_of_validCookieValue (h : validCookieValue c = true) :
    isWhitespace c = false := by
  rw [← Bool.not_eq_true]
  intro hc
  rw [isWhitespace, List.contains_iff_mem] at hc
  simp only [List.mem_cons, List.not_mem_nil, or_false] at hc
  rcases hc with rfl | rfl | rfl | rfl | rfl | rfl <;> exact absurd h (by decide)

theorem validCookieValue_of_name (h : validCookieName c = true) :
    validCookieValue c = true := by
  cases hc : validCookieValue c with
  | true => rfl
  | false => rw [validCookieName_of_value hc] at h; exact absurd h Bool.false_ne_true

theorem ltrim_spaces (n : ℕ) (str : List Char) : ltrim (spaces n ++ str) = ltrim str := by
  rw [ltrim, spaces, List.dropWhile_append_of_pos]
  · rfl
  · intro c hc
    rw [List.eq_of_mem_replicate hc]
    rfl

theorem ltrim_cons (hc : isWhitespace c = false) (str : List Char) :
    ltrim (c :: str) = c :: str :=
  List.dropWhile_cons_of_neg (by rw [hc]; exact Bool.false_ne_true)

theorem trim_of_valid {str : List Char} (h : ∀ c ∈ str, validCookieValue c = true) :
    trim str = str := by
  have hkeep : ∀ l : List Char, (∀ c ∈ l, validCookieValue c = true) →
      l.dropWhile isWhitespace = l := by
    intro l hl
    cases l with
    | nil => rfl
    | cons c l => exact ltrim_cons (isWhitespace_of_validCookieValue (hl c List.mem_cons_self)) l
  rw [trim, ltrim, hkeep str h, rtrim,
    hkeep str.reverse (fun c hc => h c (List.mem_reverse.mp hc)), List.reverse_reverse]

/-! ## One pair -/

/-- The text does not go on with a character of the set. -/
def StopsAt (valid : Char → Bool) (str : List Char) : Prop :=
  ∀ c rest, str = c :: rest → valid c = false

theorem takeWhile_append_stop {str rest : List Char}
    (h : ∀ c ∈ str, valid c = true) (hstop : StopsAt valid rest) :
    (str ++ rest).takeWhile valid = str := by
  rw [List.takeWhile_append_of_pos h]
  cases rest with
  | nil => rw [List.takeWhile_nil, List.append_nil]
  | cons c rest =>
      rw [List.takeWhile_cons_of_neg (by rw [hstop c rest rfl]; exact Bool.false_ne_true),
        List.append_nil]

theorem dropWhile_append_stop {str rest : List Char}
    (h : ∀ c ∈ str, valid c = true) (hstop : StopsAt valid rest) :
    (str ++ rest).dropWhile valid = rest := by
  rw [List.dropWhile_append_of_pos h]
  cases rest with
  | nil => rfl
  | cons c rest =>
      exact List.dropWhile_cons_of_neg (by rw [hstop c rest rfl]; exact Bool.false_ne_true)

theorem stopsAt_spaces (hspace : valid ' ' = false) (n : ℕ)
    {str : List Char} (h : StopsAt valid str) : StopsAt valid (spaces n ++ str) := by
  cases n with
  | zero => exact h
  | succ n =>
      intro c rest heq
      rw [spaces, List.replicate_succ, List.cons_append, List.cons.injEq] at heq
      rw [← heq.1]
      exact hspace

theorem stopsAt_cons (hc : valid c = false) (str : List Char) :
    StopsAt valid (c :: str) := by
  rintro _ _ ⟨rfl, rfl⟩
  exact hc

/-- The name of a pair is read up to its `=` or the spaces in front of it. -/
theorem parseSeName_pair (p : CookiePair) (k : ℕ) (rest : List Char) :
    parseSeName ⟨spaces k ++ (p.text ++ rest), [], [], true⟩ =
      ⟨spaces p.beforeEquals ++ '=' :: (spaces p.afterEquals ++ (p.valueText ++ rest)),
        p.name, [], true⟩ := by
  have htrim : ltrim (spaces k ++ (p.text ++ rest)) = p.name ++ (spaces p.beforeEquals ++
      '=' :: (spaces p.afterEquals ++ (p.valueText ++ rest))) := by
    rw [ltrim_spaces, CookiePair.text]
    obtain ⟨c, name, hname⟩ := List.exists_cons_of_ne_nil p.name_ne_nil
    have hc := p.name_valid c (hname ▸ List.mem_cons_self)
    simp only [hname, List.cons_append, List.append_assoc]
    exact ltrim_cons (isWhitespace_of_validCookieValue (validCookieValue_of_name hc)) _
  have hstop : StopsAt validCookieName (spaces p.beforeEquals ++
      '=' :: (spaces p.afterEquals ++ (p.valueText ++ rest))) :=
    stopsAt_spaces (by decide) _ (stopsAt_cons (by decide) _)
  have hdrop := dropWhile_append_stop p.name_valid hstop
  rw [parseSeName]
  simp only [htrim, takeWhile_append_stop p.name_valid hstop]
  split
  · rename_i hnil
    rw [hdrop] at hnil
    exact absurd hnil (by simp)
  · rename_i c rest' hcons
    rw [hdrop] at hcons
    rw [hcons]

theorem skipEquals_spaces (n m : ℕ) (str : List Char) :
    skipEquals (spaces n ++ '=' :: (spaces m ++ str)) = ltrim str := by
  rw [skipEquals, ltrim_spaces, ltrim_cons (by decide), lremove, if_pos rfl, ltrim_spaces]

/-- A value is read up to its end. Behind the `=` of a blank one, the spaces of the
separator are skipped as well. -/
theorem parseValue_pair (p : CookiePair) (q : SePair) (rest : List Char)
    (hstop : StopsAt validCookieValue rest) (hquote : p.Blank → (ltrim rest).head? ≠ some '"')
    (hblank : p.Blank → StopsAt validCookieValue (ltrim rest)) :
    parseValue q (ltrim (p.valueText ++ rest)) =
      { q with str := if p.Blank then ltrim rest else rest, value := p.value } := by
  rw [CookiePair.valueText]
  by_cases hq : p.quoted = true
  · have hnot : ¬ p.Blank := fun h => by rw [h.1] at hq; exact absurd hq Bool.false_ne_true
    have hclose : StopsAt validCookieValue ('"' :: rest) := stopsAt_cons (by decide) _
    rw [if_pos hq, List.cons_append, ltrim_cons (by decide), parseValue, if_neg hnot,
      List.head?_cons, if_pos rfl, List.tail_cons, List.append_assoc, List.singleton_append]
    simp only [dropWhile_append_stop p.value_valid hclose,
      takeWhile_append_stop p.value_valid hclose, List.head?_cons, if_true, List.tail_cons]
  · rw [if_neg hq]
    by_cases hnil : p.value = []
    · have hb : p.Blank := ⟨Bool.eq_false_iff.mpr hq, hnil⟩
      have htake := takeWhile_append_stop (fun c (h : c ∈ []) => absurd h List.not_mem_nil)
        (hblank hb)
      have hdrop := dropWhile_append_stop (fun c (h : c ∈ []) => absurd h List.not_mem_nil)
        (hblank hb)
      rw [List.nil_append] at htake hdrop
      rw [hnil, List.nil_append, parseValue, if_neg (hquote hb), if_pos hb, htake, hdrop]
    · have hb : ¬ p.Blank := fun h => hnil h.2
      obtain ⟨c, value, hvalue⟩ := List.exists_cons_of_ne_nil hnil
      have hc := p.value_valid c (hvalue ▸ List.mem_cons_self)
      have htrim : ltrim (p.value ++ rest) = p.value ++ rest := by
        rw [hvalue, List.cons_append]
        exact ltrim_cons (isWhitespace_of_validCookieValue hc) _
      have hhead : (p.value ++ rest).head? ≠ some '"' := by
        rw [hvalue, List.cons_append, List.head?_cons]
        intro h
        rw [Option.some_inj.mp h] at hc
        exact absurd hc (by decide)
      rw [htrim, parseValue, if_neg hhead, if_neg hb, takeWhile_append_stop p.value_valid hstop,
        dropWhile_append_stop p.value_valid hstop]

theorem parseIteration_pair (p : CookiePair) (k m : ℕ) (rest : List Char)
    (hrest : rest = [] ∨ ∃ rest', rest = ';' :: rest') :
    parseIteration (spaces k ++ (p.text ++ (spaces m ++ rest))) =
      ⟨lremove ';' (if p.Blank then rest else spaces m ++ rest), p.name, p.value, true⟩ := by
  have hstop : StopsAt validCookieValue rest := by
    rcases hrest with rfl | ⟨rest', rfl⟩
    · exact fun c rest' h => absurd h (by simp)
    · exact stopsAt_cons (by decide) _
  have htrim : ltrim (spaces m ++ rest) = rest := by
    rw [ltrim_spaces]
    rcases hrest with rfl | ⟨rest', rfl⟩
    · rfl
    · exact ltrim_cons (by decide) _
  have hquote : rest.head? ≠ some '"' := by
    rcases hrest with rfl | ⟨rest', rfl⟩
    · exact Option.some_ne_none _ |>.symm
    · rw [List.head?_cons]
      exact fun h => absurd (Option.some_inj.mp h) (by decide)
  have hvalue := parseValue_pair p ⟨spaces p.beforeEquals ++
    '=' :: (spaces p.afterEquals ++ (p.valueText ++ (spaces m ++ rest))), p.name, [], true⟩
    (spaces m ++ rest) (stopsAt_spaces (by decide) m hstop)
    (fun _ => by rw [htrim]; exact hquote) (fun _ => by rw [htrim]; exact hstop)
  rw [htrim] at hvalue
  rw [parseIteration, parseSeValue, parseSeName_pair]
  simp only [if_true, skipEquals_spaces, hvalue]

/-- The spaces in front of a `;` are a cookie without a name. -/
theorem parseIteration_separator (m : ℕ) (rest : List Char) :
    parseIteration (spaces m ++ ';' :: rest) = ⟨rest, [], [], true⟩ := by
  have htrim : ltrim (spaces m ++ ';' :: rest) = ';' :: rest := by
    rw [ltrim_spaces, ltrim_cons (by decide)]
  have hname : parseSeName ⟨spaces m ++ ';' :: rest, [], [], true⟩ =
      ⟨';' :: rest, [], [], true⟩ := by
    rw [parseSeName]
    simp only [htrim]
    rfl
  have hskip : skipEquals (';' :: rest) = ';' :: rest := by
    rw [skipEquals, ltrim_cons (by decide), lremove, if_neg (by decide), ltrim_cons (by decide)]
  rw [parseIteration, parseSeValue, hname]
  simp only [if_true, hskip]
  rfl

/-! ## All pairs -/

theorem CookiePair.text_ne_nil (p : CookiePair) : p.text ≠ [] := fun h =>
  p.name_ne_nil (List.append_eq_nil_iff.mp h).1

theorem cookieHeader_ne_nil (p : CookiePair) (pairs : List CookiePair) :
    cookieHeader (p :: pairs) ≠ [] := by
  cases pairs with
  | nil => exact p.text_ne_nil
  | cons q pairs => exact fun h => p.text_ne_nil (List.append_eq_nil_iff.mp h).1

theorem CookiePair.trim_cookie (p : CookiePair) : (trim p.name, trim p.value) = p.cookie := by
  rw [trim_of_valid (fun c hc => validCookieValue_of_name (p.name_valid c hc)),
    trim_of_valid p.value_valid, CookiePair.cookie]

theorem parse_last (p : CookiePair) (k n : ℕ) (jar : List RequestCookie) :
    parse (n + 1) jar (spaces k ++ p.text) = .ok (true, jar ++ [p.cookie]) := by
  have hiteration := parseIteration_pair p k 0 [] (.inl rfl)
  rw [show spaces 0 = [] from rfl, List.nil_append, List.append_nil, ite_self] at hiteration
  refine loop_of_done ?_ n
  rw [parseStep]
  simp only [hiteration, lremove, if_true, p.trim_cookie]
  rfl

theorem parse_closed {p : CookiePair} (hp : p.Closed) (k n : ℕ) (jar : List RequestCookie)
    (hrest : rest ≠ []) :
    parse (n + 1) jar (spaces k ++ (p.text ++ (spaces p.beforeSeparator ++ ';' :: rest))) =
      parse n (jar ++ [p.cookie]) rest := by
  have hleft : (if p.Blank then ';' :: rest else spaces p.beforeSeparator ++ ';' :: rest) =
      ';' :: rest := by
    split
    · rfl
    · rename_i hb
      rw [hp.resolve_right hb]
      rfl
  have hiteration := parseIteration_pair p k p.beforeSeparator (';' :: rest)
    (.inr ⟨rest, rfl⟩)
  rw [hleft, lremove, if_pos rfl] at hiteration
  refine loop_of_next ?_ n
  rw [parseStep]
  simp only [hiteration, if_true, if_neg hrest, p.trim_cookie]
  rfl

theorem parse_open {p : CookiePair} (hp : ¬ p.Closed) (k n : ℕ) (jar : List RequestCookie)
    (hrest : rest ≠ []) :
    parse (n + 2) jar (spaces k ++ (p.text ++ (spaces p.beforeSeparator ++ ';' :: rest))) =
      parse n (jar ++ [p.cookie] ++ [([], [])]) rest := by
  have hblank : ¬ p.Blank := fun h => hp (.inr h)
  obtain ⟨m, hm⟩ := Nat.exists_eq_succ_of_ne_zero (fun h => hp (.inl h))
  have hiteration := parseIteration_pair p k p.beforeSeparator (';' :: rest)
    (.inr ⟨rest, rfl⟩)
  have hleft : lremove ';' (spaces p.beforeSeparator ++ ';' :: rest) =
      spaces p.beforeSeparator ++ ';' :: rest := by
    rw [hm, spaces, List.replicate_succ, List.cons_append, lremove, if_neg (by decide)]
  rw [if_neg hblank, hleft] at hiteration
  have hfirst : parseStep ⟨spaces k ++ (p.text ++ (spaces p.beforeSeparator ++ ';' :: rest)),
      jar⟩ = .ok (.next ⟨spaces p.beforeSeparator ++ ';' :: rest, jar ++ [p.cookie]⟩) := by
    rw [parseStep]
    simp only [hiteration, if_true, p.trim_cookie]
    rw [if_neg (fun h => absurd (List.append_eq_nil_iff.mp h).2 (List.cons_ne_nil _ _))]
    rfl
  have hsecond : parseStep ⟨spaces p.beforeSeparator ++ ';' :: rest, jar ++ [p.cookie]⟩ =
      .ok (.next ⟨rest, jar ++ [p.cookie] ++ [([], [])]⟩) := by
    rw [parseStep, parseIteration_separator]
    simp only [if_true, if_neg hrest]
    rfl
  rw [parse, loop_of_next hfirst, loop_of_next hsecond, parse]

theorem parse_keeps_jar {n : ℕ} {jar : List RequestCookie} {source : List Char}
    {r : Bool × List RequestCookie} (h : parse n jar source = .ok r) : jar <+: r.2 := by
  refine loop_partly (fun s => jar <+: s.jar) (fun r => jar <+: r.2) (fun s hs => ?_)
    (List.prefix_refl _) h
  rw [parseStep]
  split
  · simp only
    split
    · exact hs.trans (List.prefix_append _ _)
    · exact hs.trans (List.prefix_append _ _)
  · exact hs

theorem parse_cookieHeader_iff (pairs : List CookiePair) (k : ℕ) (jar : List RequestCookie)
    (hne : pairs ≠ []) :
    (∃ n, parse n jar (spaces k ++ cookieHeader pairs) =
        .ok (true, jar ++ pairs.map CookiePair.cookie)) ↔
      ∀ p ∈ pairs.dropLast, p.Closed := by
  induction pairs generalizing k jar with
  | nil => exact absurd rfl hne
  | cons p pairs ih =>
      cases pairs with
      | nil =>
          refine iff_of_true ⟨1, ?_⟩ (fun q hq => absurd hq List.not_mem_nil)
          exact parse_last p k 0 jar
      | cons q pairs =>
          have hrest : spaces p.afterSeparator ++ cookieHeader (q :: pairs) ≠ [] := fun h =>
            cookieHeader_ne_nil q pairs (List.append_eq_nil_iff.mp h).2
          have hjar : jar ++ (p :: q :: pairs).map CookiePair.cookie =
              jar ++ [p.cookie] ++ (q :: pairs).map CookiePair.cookie := by
            rw [List.map_cons, List.append_assoc, List.singleton_append]
          have hih := ih p.afterSeparator (jar ++ [p.cookie]) (List.cons_ne_nil _ _)
          rw [hjar, cookieHeader, List.dropLast_cons_of_ne_nil (List.cons_ne_nil _ _),
            List.forall_mem_cons, ← hih]
          constructor
          · rintro ⟨n, hn⟩
            have hmono := loop_mono hn (Nat.le_add_right n 2)
            by_cases hp : p.Closed
            · refine ⟨hp, n + 1, ?_⟩
              rw [← parse_closed hp k (n + 1) jar hrest]
              exact hmono
            · -- the empty cookie is where the second pair should be
              have hopen := parse_open hp k n jar hrest
              rw [parse] at hopen
              rw [hopen] at hmono
              have hpre := parse_keeps_jar hmono
              simp only [List.append_assoc, List.prefix_append_right_inj, List.map_cons] at hpre
              have hempty := List.cons_prefix_cons.mp hpre
              exact absurd (congrArg Prod.fst hempty.1).symm q.name_ne_nil
          · rintro ⟨hp, n, hn⟩
            refine ⟨n + 1, ?_⟩
            rw [parse_closed hp k n jar hrest]
            exact hn

/-- A header that is written pair by pair is read back exactly when there is a pair, and no
spaces are left between a value and its separator. -/
theorem parsesBack_iff (pairs : List CookiePair) :
    ParsesBack pairs ↔ pairs ≠ [] ∧ ∀ p ∈ pairs.dropLast, p.Closed := by
  by_cases hne : pairs = []
  · refine iff_of_false ?_ (fun h => h.1 hne)
    rintro ⟨n, hn⟩
    rw [hne] at hn
    cases n with
    | zero => cases hn
    | succ n => cases hn
  · exact (parse_cookieHeader_iff pairs 0 [] hne).trans (and_iff_right hne).symm

/-- The header `a=1 ;b=2` has three cookies. -/
theorem not_parsesBack_space : ¬ ∀ pairs, ParsesBack pairs := by
  intro h
  let a : CookiePair := ⟨['a'], ['1'], false, 0, 0, 1, 0, by decide, by decide, by decide⟩
  let b : CookiePair := ⟨['b'], ['2'], false, 0, 0, 0, 0, by decide, by decide, by decide⟩
  obtain ⟨n, hn⟩ := h [a, b]
  have hthree : parse 3 [] (cookieHeader [a, b]) =
      .ok (true, [(['a'], ['1']), ([], []), (['b'], ['2'])]) := by decide +kernel
  have hn' := loop_mono hn (Nat.le_add_right n 3)
  have hthree' := loop_mono hthree (Nat.le_add_left 3 n)
  rw [hn'] at hthree'
  cases hthree'

end Webpp.Http
