import Webpp.Http.ResponseCookie

/-!
# The attribute loop of `parse_set_cookie`

An iteration moves over separators, a key, an equals sign and a value, and any of these may
be missing. At a character that is none of them nothing moves, and the loop never ends.
-/

namespace Webpp.Http

open Loop Webpp.Text

variable {ε : Type} {T : CookieTexts ε} {s : SetCookieState ε} {p : Char → Bool} {cs : List Char}
  {c : Char} {v : List Char}

/-- The rest does not begin with a character that no part of an iteration moves over. -/
def Movable (rest : List Char) : Prop :=
  ∀ c cs, rest = c :: cs → (semicolon c || validCookieName c || eqChar c) = true

/-! ## One iteration -/

theorem readKey_rest (s : SetCookieState ε) :
    (readKey s).rest = (s.rest.dropWhile semicolon).dropWhile validCookieName := by
  rw [readKey]
  split
  · rfl
  · rfl

theorem readAttributeValue_suffix (s : SetCookieState ε) :
    (readAttributeValue s).rest <:+ s.rest.dropWhile eqChar := by
  rw [readAttributeValue]
  split
  · rename_i hnil
    have hsplit := List.takeWhile_append_dropWhile (p := eqChar) (l := s.rest)
    rw [show s.rest.takeWhile eqChar = [] from hnil, List.nil_append] at hsplit
    exact hsplit.symm ▸ List.suffix_refl s.rest
  · split
    · rename_i v hv
      exact StringTokenizer.next_suffix hv
    · exact List.suffix_refl _

/-- What an iteration leaves of the rest. -/
def nextRest (s : SetCookieState ε) : List Char := (readAttributeValue (readKey s)).rest

theorem nextRest_suffix (s : SetCookieState ε) :
    nextRest s <:+
      ((s.rest.dropWhile semicolon).dropWhile validCookieName).dropWhile eqChar := by
  rw [← readKey_rest]
  exact readAttributeValue_suffix _

/-- A round leaves `nextRest`, as long as there is a rest. -/
theorem setCookieStep_next (hrest : s.rest ≠ []) :
    ∃ s', setCookieStep T s = .ok (.next s') ∧ s'.rest = nextRest s := by
  rw [setCookieStep, if_neg hrest]
  simp only
  split
  · exact ⟨_, rfl, rfl⟩
  · exact ⟨_, rfl, rfl⟩

theorem length_dropWhile_lt (hc : p c = true) :
    ((c :: cs).dropWhile p).length < (c :: cs).length := by
  rw [List.dropWhile_cons_of_pos hc]
  exact Nat.lt_succ_of_le (List.dropWhile_suffix _).length_le

theorem nextRest_lt (hrest : s.rest ≠ []) (hmove : Movable s.rest) :
    (nextRest s).length < s.rest.length := by
  have hle := (nextRest_suffix s).length_le
  obtain ⟨c, cs, hcons⟩ := List.exists_cons_of_ne_nil hrest
  have hc := hmove c cs hcons
  rw [hcons] at hle ⊢
  cases hsemi : semicolon c with
  | true =>
      exact Nat.lt_of_le_of_lt (hle.trans (((List.dropWhile_suffix _).trans
        (List.dropWhile_suffix _)).length_le)) (length_dropWhile_lt hsemi)
  | false =>
      rw [List.dropWhile_cons_of_neg (by rw [hsemi]; exact Bool.false_ne_true)] at hle
      cases hname : validCookieName c with
      | true =>
          exact Nat.lt_of_le_of_lt (hle.trans (List.dropWhile_suffix _).length_le)
            (length_dropWhile_lt hname)
      | false =>
          rw [List.dropWhile_cons_of_neg (by rw [hname]; exact Bool.false_ne_true)] at hle
          rw [hsemi, hname, Bool.false_or, Bool.false_or] at hc
          exact Nat.lt_of_le_of_lt hle (length_dropWhile_lt hc)

theorem nextRest_of_not_movable
    (hrest : s.rest = c :: cs) (hc : (semicolon c || validCookieName c || eqChar c) = false) :
    nextRest s = s.rest := by
  obtain ⟨⟨hsemi, hname⟩, heq⟩ : (semicolon c = false ∧ validCookieName c = false) ∧
      eqChar c = false := by
    rw [Bool.or_eq_false_iff, Bool.or_eq_false_iff] at hc
    exact hc
  have hkey : (readKey s).rest = s.rest := by
    rw [readKey_rest, hrest, List.dropWhile_cons_of_neg (by rw [hsemi]; exact Bool.false_ne_true),
      List.dropWhile_cons_of_neg (by rw [hname]; exact Bool.false_ne_true)]
  have hnil : (readKey s).rest.takeWhile eqChar = [] := by
    rw [hkey, hrest, List.takeWhile_cons_of_neg (by rw [heq]; exact Bool.false_ne_true)]
  rw [nextRest, readAttributeValue]
  simp only [StringTokenizer.expect, hnil, if_true]
  exact hkey

/-- Then the loop never ends. -/
theorem loop_not_movable
    (hrest : s.rest = c :: cs) (hc : (semicolon c || validCookieName c || eqChar c) = false)
    (n : ℕ) : loop (setCookieStep T) () n s = .error () := by
  induction n generalizing s with
  | zero => rfl
  | succ n ih =>
      obtain ⟨s', hstep, hrest'⟩ := setCookieStep_next (T := T)
        (show s.rest ≠ [] by rw [hrest]; exact List.cons_ne_nil _ _)
      rw [loop_of_next hstep]
      exact ih (hrest'.trans ((nextRest_of_not_movable hrest hc).trans hrest))

/-! ## Termination -/

/-- A state at the start of an iteration of the loop of `parse_set_cookie`. -/
def AttributeRun (T : CookieTexts ε) (c : ResponseCookie ε) (src : List Char)
    (s : SetCookieState ε) : Prop :=
  (parseSeValue ⟨src, c.name, c.value, true⟩).valid = true ∧
    Reaches (setCookieStep T) (startAttributes c (parseSeValue ⟨src, c.name, c.value, true⟩)) s

theorem parseSetCookie_of_valid {c : ResponseCookie ε} {src : List Char}
    (hvalid : (parseSeValue ⟨src, c.name, c.value, true⟩).valid = true) (n : ℕ) :
    parseSetCookie T n c src = loop (setCookieStep T) () n
      (startAttributes c (parseSeValue ⟨src, c.name, c.value, true⟩)) := if_pos hvalid

/-- The parser ends, and every iteration of its loop moves the tokenizer. -/
structure SetCookieEnds (T : CookieTexts ε) (c : ResponseCookie ε) (src : List Char) : Prop where
  terminates : ∃ n r, parseSetCookie T n c src = .ok r
  moves : ∀ s s', AttributeRun T c src s → setCookieStep T s = .ok (.next s') →
    s'.rest.length < s.rest.length

theorem setCookieStep_sat (hmove : Movable s.rest) :
    Sat (fun _ => False) (FlowSat (fun s' => True ∧ s'.rest.length < s.rest.length)
      (fun _ => True)) (setCookieStep T s) := by
  by_cases hrest : s.rest = []
  · rw [setCookieStep, if_pos hrest]
    exact trivial
  · obtain ⟨s', hstep, hrest'⟩ := setCookieStep_next (T := T) hrest
    rw [hstep]
    refine ⟨trivial, ?_⟩
    rw [hrest']
    exact nextRest_lt hrest hmove

/-- The parser of the text of dates is not looked at. -/
def noDates : CookieTexts Unit := ⟨fun _ => (), fun _ => [], fun _ => [], id⟩

end Webpp.Http

/-!
# Reading back the text of a cookie

`to_string` writes attributes one after the other, each behind a semicolon and a space. The
loop of `parse_set_cookie` takes them one by one: where the value of an attribute is made of
equals signs, the next one is taken for it.
-/

namespace Webpp.Http

open Loop Webpp.Text

variable {ε : Type}

/-! ## Lists of attributes -/

/-- An attribute as it is written. -/
structure Attribute where
  key : List Char
  value : Option (List Char)

namespace Attribute

def valueText (a : Attribute) : List Char := a.value.elim [] ('=' :: ·)

def text (a : Attribute) : List Char := ';' :: ' ' :: (a.key ++ a.valueText)

/-- The text of the attribute ends where the next one begins. -/
structure WellFormed (a : Attribute) : Prop where
  key_ne : a.key ≠ []
  key_valid : ∀ c ∈ a.key, validCookieName c = true
  value_closed : ∀ v, a.value = some v → ';' ∉ v

/-- The value is not made of equals signs only. -/
def Solid (a : Attribute) : Prop := ∀ v, a.value = some v → v.dropWhile eqChar ≠ []

end Attribute

def attributesText (as : List Attribute) : List Char := as.flatMap Attribute.text

theorem dropWhile_attributesText (hp : p ';' = false) (as : List Attribute) :
    (attributesText as).dropWhile p = attributesText as := by
  cases as with
  | nil => rfl
  | cons a as => exact List.dropWhile_cons_of_neg (by rw [hp]; exact Bool.false_ne_true)

theorem takeWhile_attributesText (hp : p ';' = false) (as : List Attribute) :
    (attributesText as).takeWhile p = [] := by
  cases as with
  | nil => rfl
  | cons a as => exact List.takeWhile_cons_of_neg (by rw [hp]; exact Bool.false_ne_true)

theorem not_semicolon_of_name (h : validCookieName c = true) :
    semicolon c = false := by
  have hne (d : Char) (hd : validCookieName d = false) : (c == d) = false := by
    refine beq_false_of_ne fun hcd => ?_
    rw [hcd, hd] at h
    exact Bool.false_ne_true h
  rw [semicolon, hne ' ' (by decide), hne '\t' (by decide), hne ';' (by decide)]
  rfl

/-! ## One iteration -/

section Iteration

variable {s : SetCookieState ε} {a : Attribute} {as : List Attribute}

theorem readKey_attributes (hrest : s.rest = attributesText (a :: as)) (ha : a.WellFormed) :
    readKey s = { s with rest := a.valueText ++ attributesText as, key := a.key } := by
  obtain ⟨c, key, hkey⟩ := List.exists_cons_of_ne_nil ha.key_ne
  have hc : validCookieName c = true := ha.key_valid c (by rw [hkey]; exact List.mem_cons_self)
  have hsemi : ¬ semicolon c = true := by
    rw [not_semicolon_of_name hc]
    exact Bool.false_ne_true
  have hskip : StringTokenizer.skip semicolon s.rest =
      a.key ++ (a.valueText ++ attributesText as) := by
    rw [hrest, attributesText, List.flatMap_cons, Attribute.text, StringTokenizer.skip, hkey]
    simp only [List.cons_append, List.append_assoc]
    rw [List.dropWhile_cons_of_pos (by rfl), List.dropWhile_cons_of_pos (by rfl),
      List.dropWhile_cons_of_neg hsemi]
    rfl
  have hstop : (a.valueText ++ attributesText as).takeWhile validCookieName = [] ∧
      (a.valueText ++ attributesText as).dropWhile validCookieName =
        a.valueText ++ attributesText as := by
    rw [Attribute.valueText]
    cases a.value with
    | none =>
        exact ⟨takeWhile_attributesText (by decide) as, dropWhile_attributesText (by decide) as⟩
    | some v =>
        exact ⟨List.takeWhile_cons_of_neg (by decide), List.dropWhile_cons_of_neg (by decide)⟩
  rw [readKey, hskip]
  simp only [StringTokenizer.expect, List.takeWhile_append_of_pos ha.key_valid,
    List.dropWhile_append_of_pos ha.key_valid, hstop.1, hstop.2, List.append_nil, if_neg ha.key_ne]

theorem readAttributeValue_none (hrest : s.rest = attributesText as) :
    readAttributeValue s = s := by
  have hnil : s.rest.takeWhile eqChar = [] := by
    rw [hrest]
    exact takeWhile_attributesText (by decide) as
  rw [readAttributeValue]
  simp only [StringTokenizer.expect, hnil, if_true]

theorem dropWhile_value (v : List Char) (as : List Attribute) :
    ('=' :: v ++ attributesText as).dropWhile eqChar =
      v.dropWhile eqChar ++ attributesText as := by
  rw [List.cons_append, List.dropWhile_cons_of_pos (by rfl), List.dropWhile_append]
  split
  · rename_i hempty
    rw [List.isEmpty_iff.mp hempty, dropWhile_attributesText (by decide), List.nil_append]
  · rfl

theorem next_of_closed {w : List Char} (hw : w ≠ []) (hclosed : ';' ∉ w)
    (as : List Attribute) :
    StringTokenizer.next (· == ';') (w ++ attributesText as) = some (w, attributesText as) := by
  have hall : ∀ c ∈ w, (!(c == ';')) = true := by
    intro c hc
    rw [Bool.not_eq_true', beq_eq_false_iff_ne]
    rintro rfl
    exact hclosed hc
  obtain ⟨c, w', rfl⟩ := List.exists_cons_of_ne_nil hw
  have hstop : (c :: w' ++ attributesText as).dropWhile (· == ';') =
      c :: w' ++ attributesText as :=
    List.dropWhile_cons_of_neg (by simpa using hall c List.mem_cons_self)
  rw [StringTokenizer.next, hstop]
  simp only [List.cons_append]
  rw [← List.cons_append, List.takeWhile_append_of_pos hall, List.dropWhile_append_of_pos hall,
    takeWhile_attributesText (by decide), dropWhile_attributesText (by decide), List.append_nil]

theorem Attribute.WellFormed.closed (ha : a.WellFormed) :
    ';' ∉ ' ' :: (a.key ++ a.valueText) := by
  intro h
  rcases List.mem_cons.mp h with h | h
  · exact absurd h (by decide)
  rcases List.mem_append.mp h with h | h
  · exact absurd (ha.key_valid _ h) (by decide)
  · rw [Attribute.valueText] at h
    cases hv : a.value with
    | none =>
        rw [hv] at h
        exact List.not_mem_nil h
    | some v =>
        rw [hv] at h
        rcases List.mem_cons.mp h with h | h
        · exact absurd h (by decide)
        · exact ha.value_closed v hv h

/-- The value behind an equals sign is what `next` finds behind all of them. -/
theorem readAttributeValue_value (hrest : s.rest = '=' :: v ++ attributesText as) :
    readAttributeValue s =
      match StringTokenizer.next (· == ';') (v.dropWhile eqChar ++ attributesText as) with
      | some r => { s with rest := r.2, value := r.1 }
      | none => { s with rest := v.dropWhile eqChar ++ attributesText as, valid := false } := by
  have hfound : ¬ (StringTokenizer.expect eqChar s.rest).1 = [] := by
    rw [hrest, StringTokenizer.expect, List.cons_append, List.takeWhile_cons_of_pos (by rfl)]
    exact List.cons_ne_nil _ _
  have hbehind : (StringTokenizer.expect eqChar s.rest).2 =
      v.dropWhile eqChar ++ attributesText as := by
    rw [hrest]
    exact dropWhile_value v as
  rw [readAttributeValue, if_neg hfound]
  exact hbehind ▸ rfl

theorem readAttributeValue_some (hrest : s.rest = '=' :: v ++ attributesText as) (hclosed : ';' ∉ v)
    (hv : v.dropWhile eqChar ≠ []) :
    readAttributeValue s =
      { s with rest := attributesText as, value := v.dropWhile eqChar } := by
  have hclosed' : ';' ∉ v.dropWhile eqChar := fun h => hclosed ((List.dropWhile_suffix _).mem h)
  rw [readAttributeValue_value hrest, next_of_closed hv hclosed']

theorem readAttributeValue_swallow
    (hrest : s.rest = '=' :: v ++ attributesText as) (hv : v.dropWhile eqChar = [])
    (has : ∀ a ∈ as, a.WellFormed) :
    (readAttributeValue s).rest = attributesText as.tail := by
  rw [readAttributeValue_value hrest, hv, List.nil_append]
  cases as with
  | nil => rfl
  | cons a as =>
      have hnext : StringTokenizer.next (· == ';') (attributesText (a :: as)) =
          some (' ' :: (a.key ++ a.valueText), attributesText as) := by
        have hw := next_of_closed (List.cons_ne_nil _ _) (has a List.mem_cons_self).closed as
        rw [← hw]
        rfl
      rw [hnext]
      rfl

theorem nextRest_attributes (hrest : s.rest = attributesText (a :: as))
    (has : ∀ b ∈ a :: as, b.WellFormed) :
    ∃ as', as' <:+ as ∧ nextRest s = attributesText as' ∧ (a.Solid → as' = as) := by
  have ha := has a List.mem_cons_self
  have hkey := readKey_attributes hrest ha
  rw [nextRest, hkey]
  cases hv : a.value with
  | none =>
      have hnone : a.valueText = [] := by
        rw [Attribute.valueText, hv]
        rfl
      refine ⟨as, List.suffix_refl _, ?_, fun _ => rfl⟩
      rw [hnone, List.nil_append, readAttributeValue_none rfl]
  | some v =>
      have hsome : a.valueText = '=' :: v := by
        rw [Attribute.valueText, hv]
        rfl
      rw [hsome]
      by_cases hsolid : v.dropWhile eqChar = []
      · refine ⟨as.tail, List.tail_suffix _, ?_, fun h => absurd hsolid (h v hv)⟩
        exact readAttributeValue_swallow rfl hsolid
          fun b hb => has b (List.mem_cons_of_mem a hb)
      · refine ⟨as, List.suffix_refl _, ?_, fun _ => rfl⟩
        rw [readAttributeValue_some rfl (ha.value_closed v hv) hsolid]

end Iteration

/-! ## What no iteration changes -/

section Kept

variable (T : CookieTexts ε)

theorem emplaceAttr_kept (key value : List Char) (c : ResponseCookie ε) :
    (emplaceAttr key value c).version = c.version ∧
      (emplaceAttr key value c).encrypted = c.encrypted := by
  rw [emplaceAttr]
  split
  · exact ⟨rfl, rfl⟩
  · exact ⟨rfl, rfl⟩

/-- An attribute changes the value and one field of the cookie, which is the version for
the key `version` only, or it is a `samesite`. -/
theorem setAttribute_cases (key : List Char) (s : AttributeState ε) :
    (∃ value c, setAttribute T key s = { s with value := value, cookie := c } ∧
      c.version = s.cookie.version ∧ c.encrypted = s.cookie.encrypted) ∨
    setAttribute T key s = setSameSite key s ∨
    iequalsSl key versionKey = true ∧ setAttribute T key s = setVersion key s := by
  have hemplace : ∃ value c, s.emplace key = { s with value := value, cookie := c } ∧
      c.version = s.cookie.version ∧ c.encrypted = s.cookie.encrypted :=
    ⟨_, _, rfl, emplaceAttr_kept key s.value s.cookie⟩
  have hkept : ∀ value c, c.version = s.cookie.version → c.encrypted = s.cookie.encrypted →
      ∃ value' c', ({ s with value := value, cookie := c } : AttributeState ε) =
        { s with value := value', cookie := c' } ∧
        c'.version = s.cookie.version ∧ c'.encrypted = s.cookie.encrypted :=
    fun value c hversion hencrypted => ⟨value, c, rfl, hversion, hencrypted⟩
  rw [setAttribute]
  simp only
  split
  · split
    · exact .inl (hkept _ _ rfl rfl)
    · exact .inl hemplace
  · split
    · exact .inl (hkept _ _ rfl rfl)
    · exact .inl hemplace
  · split
    · exact .inl (hkept _ _ rfl rfl)
    · exact .inl hemplace
  · split
    · exact .inl (hkept _ _ rfl rfl)
    · split
      · exact .inl (hkept _ _ rfl rfl)
      · exact .inl hemplace
  · split
    · exact .inl (hkept _ _ rfl rfl)
    · split
      · exact .inr (.inl rfl)
      · exact .inl hemplace
  · split
    · exact .inl (hkept _ _ rfl rfl)
    · exact .inl hemplace
  · split
    · exact .inl (hkept _ _ rfl rfl)
    · exact .inl hemplace
  · split
    · rename_i hversion
      exact .inr (.inr ⟨hversion, rfl⟩)
    · exact .inl hemplace
  · exact .inl hemplace

theorem setSameSite_kept (key : List Char) (s : AttributeState ε) :
    (setSameSite key s).cookie.version = s.cookie.version ∧
      (setSameSite key s).cookie.encrypted = s.cookie.encrypted ∧
      (s.valid = false → (setSameSite key s).valid = false) := by
  rw [setSameSite]
  simp only
  split
  · exact ⟨rfl, rfl, id⟩
  · split
    · exact ⟨rfl, rfl, id⟩
    · split
      · exact ⟨rfl, rfl, id⟩
      · obtain ⟨hversion, hencrypted⟩ := emplaceAttr_kept key (rtrim s.value) s.cookie
        exact ⟨hversion, hencrypted, fun _ => rfl⟩

theorem setVersion_kept (key : List Char) (s : AttributeState ε) :
    (setVersion key s).cookie.encrypted = s.cookie.encrypted ∧
      (s.valid = false → (setVersion key s).valid = false) := by
  rw [setVersion]
  simp only
  split
  · exact ⟨rfl, id⟩
  · split
    · exact ⟨rfl, id⟩
    · exact ⟨(emplaceAttr_kept key (rtrim s.value) s.cookie).2, fun _ => rfl⟩

/-- Only the attribute `version` changes the version, and none the encryption. -/
theorem setAttribute_kept (key : List Char) (s : AttributeState ε) :
    (setAttribute T key s).cookie.encrypted = s.cookie.encrypted ∧
      (iequalsSl key versionKey = false →
        (setAttribute T key s).cookie.version = s.cookie.version) := by
  obtain ⟨value, c, heq, hversion, hencrypted⟩ | heq | ⟨hkey, heq⟩ := setAttribute_cases T key s
  · rw [heq]
    exact ⟨hencrypted, fun _ => hversion⟩
  · rw [heq]
    obtain ⟨hversion, hencrypted, -⟩ := setSameSite_kept key s
    exact ⟨hencrypted, fun _ => hversion⟩
  · rw [heq]
    exact ⟨(setVersion_kept key s).1, fun h => absurd (hkey.symm.trans h) Bool.noConfusion⟩

theorem setAttribute_valid (key : List Char) {s : AttributeState ε} (h : s.valid = false) :
    (setAttribute T key s).valid = false := by
  obtain ⟨value, c, heq, -⟩ | heq | ⟨-, heq⟩ := setAttribute_cases T key s
  · rw [heq]
    exact h
  · rw [heq]
    exact (setSameSite_kept key s).2.2 h
  · rw [heq]
    exact (setVersion_kept key s).2 h

theorem readKey_kept (s : SetCookieState ε) :
    (readKey s).cookie = s.cookie ∧ (s.valid = false → (readKey s).valid = false) := by
  rw [readKey]
  split
  · exact ⟨rfl, fun _ => rfl⟩
  · exact ⟨rfl, id⟩

theorem readAttributeValue_kept (s : SetCookieState ε) :
    (readAttributeValue s).key = s.key ∧ (readAttributeValue s).cookie = s.cookie ∧
      (s.valid = false → (readAttributeValue s).valid = false) := by
  rw [readAttributeValue]
  split
  · exact ⟨rfl, rfl, id⟩
  · split
    · exact ⟨rfl, rfl, id⟩
    · exact ⟨rfl, rfl, fun _ => rfl⟩

theorem setCookieStep_eq (hrest : s.rest ≠ []) :
    ∃ s', setCookieStep T s = .ok (.next s') ∧ s'.rest = nextRest s ∧
      ((readKey s).key = [] ∧ s'.cookie = s.cookie ∧ s'.valid = false ∨
        ∃ valid, (s.valid = false → valid = false) ∧
          (⟨s'.value, s'.valid, s'.cookie⟩ : AttributeState ε) =
            setAttribute T (readKey s).key
              ⟨(readAttributeValue (readKey s)).value, valid, s.cookie⟩) := by
  obtain ⟨hcookie, hvalid⟩ := readKey_kept s
  obtain ⟨hkey', hcookie', hvalid'⟩ := readAttributeValue_kept (readKey s)
  rw [setCookieStep, if_neg hrest]
  simp only
  rw [hkey', hcookie', hcookie]
  split
  · rename_i hnil
    exact ⟨_, rfl, rfl, .inl ⟨hnil, rfl, rfl⟩⟩
  · exact ⟨_, rfl, rfl, .inr ⟨_, fun h => hvalid' (hvalid h), rfl⟩⟩

/-- An iteration keeps the encryption, an error, and the version unless its key is
`version`. -/
theorem setCookieStep_kept {s s' : SetCookieState ε} (h : setCookieStep T s = .ok (.next s')) :
    s'.cookie.encrypted = s.cookie.encrypted ∧ (s.valid = false → s'.valid = false) ∧
      (iequalsSl (readKey s).key versionKey = false →
        s'.cookie.version = s.cookie.version) := by
  have hrest : s.rest ≠ [] := by
    intro hrest
    rw [setCookieStep, if_pos hrest] at h
    cases h
  obtain ⟨t, hstep, -, ht⟩ := setCookieStep_eq T hrest
  rw [hstep] at h
  cases h
  obtain ⟨-, hcookie, hvalid⟩ | ⟨valid, hvalid, heq⟩ := ht
  · rw [hcookie]
    exact ⟨rfl, fun _ => hvalid, fun _ => rfl⟩
  · have hkept := setAttribute_kept T (readKey s).key
      ⟨(readAttributeValue (readKey s)).value, valid, s.cookie⟩
    rw [← heq] at hkept
    refine ⟨hkept.1, fun hs => ?_, hkept.2⟩
    have hstays := setAttribute_valid T (readKey s).key
      (s := ⟨(readAttributeValue (readKey s)).value, valid, s.cookie⟩) (hvalid hs)
    rw [← heq] at hstays
    exact hstays

end Kept

/-! ## Runs of the loop -/

section Runs

variable {T : CookieTexts ε} {n : ℕ} {s : SetCookieState ε} {r : Bool × ResponseCookie ε}

theorem setCookieStep_done (h : setCookieStep T s = .ok (.done r)) :
    s.rest = [] ∧ r = (s.valid, s.cookie) := by
  by_cases hrest : s.rest = []
  · rw [setCookieStep, if_pos hrest] at h
    cases h
    exact ⟨hrest, rfl⟩
  · obtain ⟨s', hstep, -⟩ := setCookieStep_next (T := T) hrest
    rw [hstep] at h
    cases h

theorem loop_encrypted (h : loop (setCookieStep T) () n s = .ok r) :
    r.2.encrypted = s.cookie.encrypted := by
  refine loop_done (fun t : SetCookieState ε => t.cookie.encrypted = s.cookie.encrypted)
    (fun r => r.2.encrypted = s.cookie.encrypted) ?_ ?_ rfl h
  · intro t t' ht hstep
    exact (setCookieStep_kept T hstep).1.trans ht
  · intro t r' ht hstep
    rw [(setCookieStep_done hstep).2]
    exact ht

theorem rest_of_next {s' : SetCookieState ε} (h : setCookieStep T s = .ok (.next s')) :
    s.rest ≠ [] ∧ s'.rest = nextRest s := by
  have hrest : s.rest ≠ [] := by
    intro hrest
    rw [setCookieStep, if_pos hrest] at h
    cases h
  obtain ⟨t, hstep, ht⟩ := setCookieStep_next (T := T) hrest
  rw [hstep] at h
  cases h
  exact ⟨hrest, ht⟩

theorem loop_version {as : List Attribute} (hrest : s.rest = attributesText as)
    (has : ∀ a ∈ as, a.WellFormed ∧ iequalsSl a.key versionKey = false)
    (h : loop (setCookieStep T) () n s = .ok r) : r.2.version = s.cookie.version := by
  refine loop_done (fun t : SetCookieState ε => (∃ as, t.rest = attributesText as ∧
      ∀ a ∈ as, a.WellFormed ∧ iequalsSl a.key versionKey = false) ∧
      t.cookie.version = s.cookie.version)
    (fun r => r.2.version = s.cookie.version) ?_ ?_ ⟨⟨as, hrest, has⟩, rfl⟩ h
  · intro t t' ht hstep
    obtain ⟨⟨bs, hbs, hall⟩, hversion⟩ := ht
    obtain ⟨hne, hnext⟩ := rest_of_next hstep
    cases bs with
    | nil => exact absurd hbs hne
    | cons b bs =>
        have hb := hall b List.mem_cons_self
        obtain ⟨as', hsuffix, hnext', -⟩ := nextRest_attributes hbs fun a ha => (hall a ha).1
        have hkey : iequalsSl (readKey t).key versionKey = false := by
          rw [readKey_attributes hbs hb.1]
          exact hb.2
        refine ⟨⟨as', hnext.trans hnext', fun a ha => ?_⟩, ?_⟩
        · exact hall a (List.mem_cons_of_mem b (hsuffix.mem ha))
        · exact ((setCookieStep_kept T hstep).2.2 hkey).trans hversion
  · intro t r' ht hstep
    rw [(setCookieStep_done hstep).2]
    exact ht.2

/-- The version that a cookie of the newer kind is written with. -/
def versionAttribute : Attribute := ⟨versionKey, some ['"', '1', '"']⟩

theorem versionAttribute_wellFormed : versionAttribute.WellFormed ∧ versionAttribute.Solid := by
  refine ⟨⟨by decide, by decide, ?_⟩, ?_⟩
  · intro v hv
    cases hv
    decide
  · intro v hv
    cases hv
    decide

theorem setCookieStep_versionAttribute {s' : SetCookieState ε}
    (hrest : s.rest = attributesText [versionAttribute])
    (h : setCookieStep T s = .ok (.next s')) : s'.valid = false := by
  have hkey := readKey_attributes hrest versionAttribute_wellFormed.1
  have hvalue : (readAttributeValue (readKey s)).value = ['"', '1', '"'] := by
    rw [hkey, readAttributeValue_some rfl (by decide) (by decide)]
    rfl
  obtain ⟨t, hstep, -, ht⟩ := setCookieStep_eq T (rest_of_next h).1
  rw [hstep] at h
  cases h
  obtain ⟨-, -, hvalid⟩ | ⟨valid, -, heq⟩ := ht
  · exact hvalid
  · rw [hvalue, hkey] at heq
    exact congrArg AttributeState.valid heq

theorem loop_versionAttribute {as : List Attribute}
    (hrest : s.rest = attributesText (as ++ [versionAttribute]))
    (has : ∀ a ∈ as, a.WellFormed ∧ a.Solid)
    (h : loop (setCookieStep T) () n s = .ok r) : r.1 = false := by
  refine loop_done (fun t : SetCookieState ε => t.valid = false ∨
      ∃ as, t.rest = attributesText (as ++ [versionAttribute]) ∧
        ∀ a ∈ as, a.WellFormed ∧ a.Solid)
    (fun r => r.1 = false) ?_ ?_ (.inr ⟨as, hrest, has⟩) h
  · intro t t' ht hstep
    obtain ht | ⟨bs, hbs, hall⟩ := ht
    · exact .inl ((setCookieStep_kept T hstep).2.1 ht)
    · cases bs with
      | nil => exact .inl (setCookieStep_versionAttribute hbs hstep)
      | cons b bs =>
          have hwell : ∀ a ∈ b :: (bs ++ [versionAttribute]), a.WellFormed := by
            intro a ha
            rcases List.mem_append.mp (List.cons_append ▸ ha : a ∈ (b :: bs) ++ [versionAttribute])
              with ha | ha
            · exact (hall a ha).1
            · rw [List.mem_singleton.mp ha]
              exact versionAttribute_wellFormed.1
          obtain ⟨as', -, hnext', hsolid⟩ := nextRest_attributes hbs hwell
          obtain ⟨hne, hnext⟩ := rest_of_next hstep
          refine .inr ⟨bs, ?_, fun a ha => hall a (List.mem_cons_of_mem b ha)⟩
          rw [hnext, hnext', hsolid (hall b List.mem_cons_self).2]
          rfl
  · intro t r' ht hstep
    obtain ⟨hnil, hr⟩ := setCookieStep_done hstep
    rw [hr]
    obtain ht | ⟨bs, hbs, -⟩ := ht
    · exact ht
    · rw [hnil, attributesText, List.flatMap_append] at hbs
      have hlast := (List.append_eq_nil_iff.mp hbs.symm).2
      cases hlast

end Runs

end Webpp.Http
