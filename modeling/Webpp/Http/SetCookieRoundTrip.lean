import Mathlib.Data.List.DropRight
import Webpp.Http.SetCookie

/-!
# No cookie comes back

The cookie that `parse_set_cookie` reads from `to_string` is never the one that was written,
since no version comes back: the older kind of cookie is written without one, and the newer
kind with quotes around it, which are taken for a part of it.
-/

namespace Webpp.Http

open Loop Webpp.Text

variable {ε : Type} {c : ResponseCookie ε} {as : List Attribute}

/-! ## The attributes of a cookie -/

def quoted (quote : Bool) (value : List Char) : List Char :=
  if quote then '"' :: value ++ ['"'] else value

def optionalAttribute (quote : Bool) (key value : List Char) : List Attribute :=
  if value = [] then [] else [⟨key, some (quoted quote value)⟩]

theorem optionalText_eq (quote : Bool) (key value : List Char) :
    optionalText quote key value = attributesText (optionalAttribute quote key value) := by
  rw [optionalText, optionalAttribute]
  split
  · rfl
  · simp [attributeText, attributesText, Attribute.text, Attribute.valueText, quoted]

def sameSiteAttribute : SameSite → List Attribute
  | .none => [⟨['S', 'a', 'm', 'e', 'S', 'i', 't', 'e'], some ['N', 'o', 'n', 'e']⟩]
  | .lax => [⟨['S', 'a', 'm', 'e', 'S', 'i', 't', 'e'], some ['L', 'a', 'x']⟩]
  | .strict =>
      [⟨['S', 'a', 'm', 'e', 'S', 'i', 't', 'e'], some ['S', 't', 'r', 'i', 'c', 't']⟩]
  | .notSpecified => []

def flagAttributes (c : ResponseCookie ε) : List Attribute :=
  sameSiteAttribute c.sameSite ++
    (if c.secure then [⟨['s', 'e', 'c', 'u', 'r', 'e'], none⟩] else []) ++
    (if c.httpOnly then [⟨['H', 't', 't', 'p', 'O', 'n', 'l', 'y'], none⟩] else [])

theorem flagsText_eq (c : ResponseCookie ε) :
    flagsText c = attributesText (flagAttributes c) := by
  rw [flagsText, flagAttributes]
  cases c.sameSite <;> cases c.secure <;> cases c.httpOnly <;> rfl

/-- A cookie whose texts are legal, without a date and without unknown attributes. -/
structure Plain (c : ResponseCookie ε) : Prop where
  name_ne : c.name ≠ []
  name : ∀ ch ∈ c.name, validCookieName ch = true
  value : ∀ ch ∈ c.value, validCookieValue ch = true
  domain : ∀ ch ∈ c.domain, validCookieValue ch = true
  path : ∀ ch ∈ c.path, validCookieValue ch = true
  comment : ∀ ch ∈ c.comment, validCookieValue ch = true
  priority : ∀ ch ∈ c.priority, validCookieValue ch = true
  expires : c.expires = none
  attrs : c.attrs = []

/-- The attributes of a Netscape cookie. -/
def attributesOfV0 (T : CookieTexts ε) (c : ResponseCookie ε) : List Attribute :=
  optionalAttribute false domainKey c.domain ++ optionalAttribute false pathKey c.path ++
    optionalAttribute false priorityKey c.priority ++
    (if c.maxAge ≠ maxAgeExistenceValue then [⟨expiresKey, some (expiresStringTo T c)⟩] else []) ++
    flagAttributes c

/-- The attributes of an RFC 2109 cookie without a date, before the version. -/
def attributesOfV1 (T : CookieTexts ε) (c : ResponseCookie ε) : List Attribute :=
  optionalAttribute true commentKey c.comment ++ optionalAttribute true domainKey c.domain ++
    optionalAttribute true pathKey c.path ++ optionalAttribute true priorityKey c.priority ++
    (if c.maxAge ≠ -1 then [⟨maxAgeKey, some (quoted true (T.maxAgeText c.maxAge))⟩] else []) ++
    flagAttributes c

theorem attributesText_append (as bs : List Attribute) :
    attributesText (as ++ bs) = attributesText as ++ attributesText bs := List.flatMap_append

theorem attributesText_singleton (quote : Bool) (key value : List Char) :
    attributesText [⟨key, some (quoted quote value)⟩] = attributeText quote key value := by
  simp [attributeText, attributesText, Attribute.text, Attribute.valueText, quoted]

theorem attributesV0_eq (T : CookieTexts ε) (c : ResponseCookie ε) :
    attributesV0 T c = attributesText (attributesOfV0 T c) := by
  rw [attributesV0, attributesOfV0]
  simp only [attributesText_append, optionalText_eq, flagsText_eq]
  split
  · rw [← attributesText_singleton]
    rfl
  · rfl

theorem attributesV1_eq (T : CookieTexts ε) (h : c.expires = none) :
    attributesV1 T c = attributesText (attributesOfV1 T c ++ [versionAttribute]) := by
  rw [attributesV1, attributesOfV1, h]
  simp only [attributesText_append, optionalText_eq, flagsText_eq]
  have hversion : attributeText true versionKey ['1'] = attributesText [versionAttribute] :=
    (attributesText_singleton true versionKey ['1']).symm
  rw [hversion]
  split
  · rw [attributesText_singleton]
  · rfl

/-! ## Their form -/

theorem wellFormed_of_value (quote : Bool) {key value : List Char} (hne : key ≠ [])
    (hkey : ∀ c ∈ key, validCookieName c = true) (hvalue : ';' ∉ value) :
    (⟨key, some (quoted quote value)⟩ : Attribute).WellFormed := by
  refine ⟨hne, hkey, fun v hv hmem => hvalue ?_⟩
  cases hv
  cases quote with
  | false => exact hmem
  | true =>
      rcases List.mem_cons.mp hmem with h | h
      · exact absurd h (by decide)
      · rcases List.mem_append.mp h with h | h
        · exact h
        · exact absurd (List.mem_singleton.mp h) (by decide)

theorem solid_of_quoted (key value : List Char) :
    (⟨key, some (quoted true value)⟩ : Attribute).Solid := by
  intro v hv
  cases hv
  rw [quoted, if_pos rfl, List.cons_append, List.dropWhile_cons_of_neg (by decide)]
  exact List.cons_ne_nil _ _

theorem semicolon_not_mem {value : List Char} (h : ∀ c ∈ value, validCookieValue c = true) :
    ';' ∉ value := fun hmem => absurd (h _ hmem) (by decide)

theorem forall_optionalAttribute {quote : Bool} {key value : List Char} {P : Attribute → Prop}
    (h : P ⟨key, some (quoted quote value)⟩) : ∀ a ∈ optionalAttribute quote key value, P a := by
  intro a ha
  rw [optionalAttribute] at ha
  split at ha
  · exact absurd ha List.not_mem_nil
  · rw [List.mem_singleton.mp ha]
    exact h

theorem forall_append {P : Attribute → Prop} {as bs : List Attribute} (has : ∀ a ∈ as, P a)
    (hbs : ∀ a ∈ bs, P a) : ∀ a ∈ as ++ bs, P a := fun a ha =>
  (List.mem_append.mp ha).elim (has a) (hbs a)

theorem iequalsSl_version_keys : iequalsSl domainKey versionKey = false ∧
    iequalsSl pathKey versionKey = false ∧ iequalsSl priorityKey versionKey = false ∧
    iequalsSl expiresKey versionKey = false := by
  decide

theorem flagAttributes_form (c : ResponseCookie ε) :
    ∀ a ∈ flagAttributes c, a.WellFormed ∧ a.Solid ∧ iequalsSl a.key versionKey = false := by
  have hsite (value : List Char) (hclosed : ';' ∉ value) (hsolid : value.dropWhile eqChar ≠ []) :
      (⟨['S', 'a', 'm', 'e', 'S', 'i', 't', 'e'], some value⟩ : Attribute).WellFormed ∧
        (⟨['S', 'a', 'm', 'e', 'S', 'i', 't', 'e'], some value⟩ : Attribute).Solid ∧
        iequalsSl ['S', 'a', 'm', 'e', 'S', 'i', 't', 'e'] versionKey = false :=
    ⟨wellFormed_of_value false (by decide) (by decide) hclosed,
      fun v hv => Option.some_inj.mp hv ▸ hsolid, by decide⟩
  have hflag (key : List Char) (hne : key ≠ []) (hkey : ∀ c ∈ key, validCookieName c = true)
      (hversion : iequalsSl key versionKey = false) :
      (⟨key, none⟩ : Attribute).WellFormed ∧ (⟨key, none⟩ : Attribute).Solid ∧
        iequalsSl key versionKey = false :=
    ⟨⟨hne, hkey, fun v hv => absurd hv fun h => nomatch h⟩,
      fun v hv => absurd hv (fun h => nomatch h), hversion⟩
  refine forall_append (forall_append ?_ ?_) ?_
  · cases c.sameSite with
    | notSpecified => exact fun a ha => absurd ha List.not_mem_nil
    | none =>
        intro a ha
        rw [List.mem_singleton.mp ha]
        exact hsite _ (by decide) (by decide)
    | lax =>
        intro a ha
        rw [List.mem_singleton.mp ha]
        exact hsite _ (by decide) (by decide)
    | strict =>
        intro a ha
        rw [List.mem_singleton.mp ha]
        exact hsite _ (by decide) (by decide)
  · intro a ha
    split at ha
    · rw [List.mem_singleton.mp ha]
      exact hflag _ (by decide) (by decide) (by decide)
    · exact absurd ha List.not_mem_nil
  · intro a ha
    split at ha
    · rw [List.mem_singleton.mp ha]
      exact hflag _ (by decide) (by decide) (by decide)
    · exact absurd ha List.not_mem_nil

theorem attributesOfV0_form (T : CookieTexts ε) (h : Plain c) :
    ∀ a ∈ attributesOfV0 T c, a.WellFormed ∧ iequalsSl a.key versionKey = false := by
  obtain ⟨hdomain, hpath, hpriority, hexpires⟩ := iequalsSl_version_keys
  refine forall_append (forall_append (forall_append (forall_append ?_ ?_) ?_) ?_) ?_
  · exact forall_optionalAttribute
      ⟨wellFormed_of_value _ (by decide) (by decide) (semicolon_not_mem h.domain), hdomain⟩
  · exact forall_optionalAttribute
      ⟨wellFormed_of_value _ (by decide) (by decide) (semicolon_not_mem h.path), hpath⟩
  · exact forall_optionalAttribute
      ⟨wellFormed_of_value _ (by decide) (by decide) (semicolon_not_mem h.priority), hpriority⟩
  · intro a ha
    split at ha
    · have hempty : expiresStringTo T c = [] := by
        rw [expiresStringTo, h.expires]
        rfl
      rw [List.mem_singleton.mp ha, hempty]
      exact ⟨wellFormed_of_value false (by decide) (by decide) List.not_mem_nil,
        hexpires⟩
    · exact absurd ha List.not_mem_nil
  · intro a ha
    obtain ⟨hform, -, hversion⟩ := flagAttributes_form c a ha
    exact ⟨hform, hversion⟩

theorem attributesOfV1_form {T : CookieTexts ε} (hT : ∀ age, ';' ∉ T.maxAgeText age) (h : Plain c) :
    ∀ a ∈ attributesOfV1 T c, a.WellFormed ∧ a.Solid := by
  have hform (key value : List Char) (hne : key ≠ [])
      (hkey : ∀ c ∈ key, validCookieName c = true) (hvalue : ';' ∉ value) :
      (⟨key, some (quoted true value)⟩ : Attribute).WellFormed ∧
        (⟨key, some (quoted true value)⟩ : Attribute).Solid :=
    ⟨wellFormed_of_value true hne hkey hvalue, solid_of_quoted key value⟩
  refine forall_append (forall_append (forall_append (forall_append (forall_append
    ?_ ?_) ?_) ?_) ?_) ?_
  · exact forall_optionalAttribute
      (hform _ _ (by decide) (by decide) (semicolon_not_mem h.comment))
  · exact forall_optionalAttribute
      (hform _ _ (by decide) (by decide) (semicolon_not_mem h.domain))
  · exact forall_optionalAttribute
      (hform _ _ (by decide) (by decide) (semicolon_not_mem h.path))
  · exact forall_optionalAttribute
      (hform _ _ (by decide) (by decide) (semicolon_not_mem h.priority))
  · intro a ha
    split at ha
    · rw [List.mem_singleton.mp ha]
      exact hform _ _ (by decide) (by decide) (hT _)
    · exact absurd ha List.not_mem_nil
  · intro a ha
    obtain ⟨hwell, hsolid, -⟩ := flagAttributes_form c a ha
    exact ⟨hwell, hsolid⟩

/-! ## What is read -/

theorem value_char {ch : Char} (h : validCookieValue ch = true) :
    isWhitespace ch = false ∧ ch ≠ '"' := by
  have hne (d : Char) (hd : validCookieValue d = false) : ch ≠ d := by
    rintro rfl
    exact absurd (hd.symm.trans h) Bool.false_ne_true
  refine ⟨?_, hne '"' (by decide)⟩
  rw [isWhitespace, Bool.eq_false_iff, ne_eq, List.contains_iff_mem]
  intro hmem
  have hall : ∀ d ∈ [' ', '\n', '\r', '\t', '\x0c', '\x0b'], validCookieValue d = false := by
    decide
  exact hne ch (hall ch hmem) rfl

theorem ltrim_of_head {str : List Char} (h : ∀ ch ∈ str.head?, isWhitespace ch = false) :
    ltrim str = str := by
  cases str with
  | nil => rfl
  | cons ch str =>
      refine List.dropWhile_cons_of_neg ?_
      rw [h ch rfl]
      exact Bool.false_ne_true

theorem value_of_name {ch : Char} (h : validCookieName ch = true) :
    validCookieValue ch = true := by
  rw [← Bool.not_eq_false]
  intro hvalue
  exact absurd ((validCookieName_of_value hvalue).symm.trans h) Bool.false_ne_true

theorem parseSeName_eq {name str : List Char} (p : SePair) (hne : name ≠ [])
    (hname : ∀ ch ∈ name, validCookieName ch = true) (hstr : p.str = name ++ '=' :: str) :
    parseSeName p = { p with str := '=' :: str, name := name, valid := true } := by
  have hhead : ∀ ch ∈ p.str.head?, isWhitespace ch = false := by
    obtain ⟨ch, name', rfl⟩ := List.exists_cons_of_ne_nil hne
    intro ch' hch'
    rw [hstr] at hch'
    rw [← Option.some_inj.mp hch']
    exact (value_char (value_of_name (hname ch List.mem_cons_self))).1
  have hdrop : p.str.dropWhile validCookieName = '=' :: str := by
    rw [hstr, List.dropWhile_append_of_pos hname]
    exact List.dropWhile_cons_of_neg (by decide)
  have htake : p.str.takeWhile validCookieName = name := by
    rw [hstr, List.takeWhile_append_of_pos hname, List.takeWhile_cons_of_neg (by decide),
      List.append_nil]
  rw [parseSeName, ltrim_of_head hhead, hdrop]
  simp only [htake]

theorem skipEquals_cons {str : List Char} (h : ∀ ch ∈ str.head?, isWhitespace ch = false) :
    skipEquals ('=' :: str) = str := by
  have hequals : ltrim ('=' :: str) = '=' :: str := List.dropWhile_cons_of_neg (by decide)
  rw [skipEquals, hequals, lremove, if_pos rfl, ltrim_of_head h]

theorem parseSeValue_quoted {name value str : List Char} (p : SePair) (hne : name ≠ [])
    (hname : ∀ ch ∈ name, validCookieName ch = true)
    (hvalue : ∀ ch ∈ value, validCookieValue ch = true)
    (hstr : p.str = name ++ '=' :: '"' :: (value ++ '"' :: str)) :
    parseSeValue p = ⟨str, name, value, true⟩ := by
  have hquote : ∀ ch ∈ ('"' :: (value ++ '"' :: str)).head?, isWhitespace ch = false := by
    intro ch hch
    rw [← Option.some_inj.mp hch]
    decide
  have hdrop : (value ++ '"' :: str).dropWhile validCookieValue = '"' :: str := by
    rw [List.dropWhile_append_of_pos hvalue]
    exact List.dropWhile_cons_of_neg (by decide)
  have htake : (value ++ '"' :: str).takeWhile validCookieValue = value := by
    rw [List.takeWhile_append_of_pos hvalue, List.takeWhile_cons_of_neg (by decide),
      List.append_nil]
  rw [parseSeValue, parseSeName_eq p hne hname hstr]
  simp only [if_true]
  rw [skipEquals_cons hquote, parseValue, if_pos (List.head?_cons ..)]
  simp only [List.tail_cons, hdrop, htake, List.head?_cons, if_true]

theorem parseSeValue_plain {name value : List Char} (p : SePair)
    (hne : name ≠ []) (hname : ∀ ch ∈ name, validCookieName ch = true)
    (hvalue : ∀ ch ∈ value, validCookieValue ch = true)
    (hstr : p.str = name ++ '=' :: (value ++ attributesText as)) :
    parseSeValue p = ⟨attributesText as, name, value, true⟩ := by
  have hhead : ∀ ch ∈ (value ++ attributesText as).head?, isWhitespace ch = false ∧ ch ≠ '"' := by
    intro ch hch
    cases value with
    | nil =>
        cases as with
        | nil => exact absurd hch (Option.not_mem_none ch)
        | cons a as =>
            rw [← Option.some_inj.mp hch]
            decide
    | cons v value =>
        rw [← Option.some_inj.mp hch]
        exact value_char (hvalue v List.mem_cons_self)
  have hquote : ¬ (value ++ attributesText as).head? = some '"' :=
    fun h => (hhead '"' h).2 rfl
  rw [parseSeValue, parseSeName_eq p hne hname hstr]
  simp only [if_true]
  rw [skipEquals_cons fun ch hch => (hhead ch hch).1, parseValue, if_neg hquote,
    List.dropWhile_append_of_pos hvalue, List.takeWhile_append_of_pos hvalue,
    dropWhile_attributesText (by decide), takeWhile_attributesText (by decide), List.append_nil]

theorem loop_skip (T : CookieTexts ε) {s : SetCookieState ε}
    (hrest : s.rest = attributesText as) (has : ∀ a ∈ as, a.WellFormed) (n : ℕ) :
    loop (setCookieStep T) () n { s with rest := StringTokenizer.skip semicolon s.rest } =
      loop (setCookieStep T) () n s := by
  have hstep : setCookieStep T { s with rest := StringTokenizer.skip semicolon s.rest } =
      setCookieStep T s := by
    cases as with
    | nil =>
        have hnil : StringTokenizer.skip semicolon s.rest = s.rest := by
          rw [hrest]
          rfl
        rw [hnil]
    | cons a as =>
        obtain ⟨c, key, hkey⟩ := List.exists_cons_of_ne_nil (has a List.mem_cons_self).key_ne
        have hc := (has a List.mem_cons_self).key_valid c (by rw [hkey]; exact List.mem_cons_self)
        have hmem : c ∈ s.rest := by
          rw [hrest, attributesText, List.flatMap_cons, Attribute.text, hkey]
          simp
        have hne : ¬ StringTokenizer.skip semicolon s.rest = [] := by
          intro hnil
          have hsemi := List.dropWhile_eq_nil_iff.mp hnil c hmem
          exact absurd ((not_semicolon_of_name hc).symm.trans hsemi) Bool.false_ne_true
        have hne' : ¬ s.rest = [] := List.ne_nil_of_mem hmem
        have hread : readKey { s with rest := StringTokenizer.skip semicolon s.rest } =
            readKey s := by
          rw [readKey, readKey]
          simp only [StringTokenizer.skip, List.dropWhile_idempotent]
          rfl
        rw [setCookieStep, setCookieStep, if_neg hne, if_neg hne', hread]
  cases n with
  | zero => rfl
  | succ n => rw [loop, loop, hstep]

section Result

variable {T : CookieTexts ε} {c : ResponseCookie ε} {n : ℕ} {r : Bool × ResponseCookie ε}

theorem parseSetCookie_encrypted {src : List Char} (h : parseSetCookie T n c src = .ok r) :
    r.2.encrypted = c.encrypted := by
  by_cases hvalid : (parseSeValue ⟨src, c.name, c.value, true⟩).valid = true
  · rw [parseSetCookie_of_valid hvalid] at h
    exact loop_encrypted h
  · rw [parseSetCookie] at h
    rw [if_neg hvalid] at h
    cases h
    rfl

theorem parseSetCookie_attributes {src name value : List Char}
    (hp : parseSeValue ⟨src, c.name, c.value, true⟩ = ⟨attributesText as, name, value, true⟩)
    (has : ∀ a ∈ as, a.WellFormed) :
    parseSetCookie T n c src = loop (setCookieStep T) () n
      ⟨attributesText as, [], [], true, { c with name := name, value := value }⟩ := by
  have hvalid : (parseSeValue ⟨src, c.name, c.value, true⟩).valid = true := by rw [hp]
  rw [parseSetCookie_of_valid hvalid, hp]
  exact loop_skip (s := ⟨attributesText as, [], [], true, { c with name := name, value := value }⟩)
    T rfl has n

theorem parse_toString_v0 (hplain : Plain c) (hversion : c.version = .version0)
    (hencrypted : c.encrypted = false)
    (h : parseSetCookie T n {} (toString T c) = .ok r) : r.2.version = .version1 := by
  have htext : toString T c = c.name ++ '=' :: (c.value ++ attributesText (attributesOfV0 T c)) := by
    rw [toString, hversion, valueText, hencrypted, hplain.attrs, attributesV0_eq]
    simp [attrsText]
  have hform := attributesOfV0_form T hplain
  have hp := parseSeValue_plain ⟨toString T c, [], [], true⟩ hplain.name_ne hplain.name
    hplain.value htext
  rw [parseSetCookie_attributes hp fun a ha => (hform a ha).1] at h
  exact loop_version rfl hform h

theorem parse_toString_v1 (hT : ∀ age, ';' ∉ T.maxAgeText age) (hplain : Plain c)
    (hversion : c.version = .version1) (hencrypted : c.encrypted = false)
    (h : parseSetCookie T n {} (toString T c) = .ok r) : r.1 = false := by
  have htext : toString T c = c.name ++ '=' :: '"' ::
      (c.value ++ '"' :: attributesText (attributesOfV1 T c ++ [versionAttribute])) := by
    rw [toString, hversion, valueText, hencrypted, hplain.attrs, attributesV1_eq T hplain.expires]
    simp [attrsText]
  have hform := attributesOfV1_form hT hplain
  have hp := parseSeValue_quoted ⟨toString T c, [], [], true⟩ hplain.name_ne hplain.name
    hplain.value htext
  have hwell : ∀ a ∈ attributesOfV1 T c ++ [versionAttribute], a.WellFormed :=
    forall_append (fun a ha => (hform a ha).1) fun a ha => by
      rw [List.mem_singleton.mp ha]
      exact versionAttribute_wellFormed.1
  rw [parseSetCookie_attributes hp hwell] at h
  exact loop_versionAttribute rfl hform h

end Result

/-! ## The round trip -/

/-- The cookie comes back from its text, and the text has no age that is not set. -/
structure RoundTrips [DecidableEq ε] (T : CookieTexts ε) (c : ResponseCookie ε) : Prop where
  parses : ∃ n c', parseSetCookie T n {} (toString T c) = .ok (true, c') ∧
    c.equals c' = true ∧ c'.maxAge = c.maxAge
  mentions : (';' :: ' ' :: maxAgeKey) <:+: toString T c → c.maxAge ≠ maxAgeExistenceValue

theorem equals_fields [DecidableEq ε] {c c' : ResponseCookie ε} (h : c.equals c' = true) :
    c.version = c'.version ∧ c.encrypted = c'.encrypted := by
  rw [ResponseCookie.equals, Bool.and_eq_true, decide_eq_true_iff] at h
  have hversion := congrArg ResponseCookie.version h.1
  have hencrypted := congrArg ResponseCookie.encrypted h.1
  exact ⟨hversion, hencrypted⟩

/-- A cookie never comes back from its text. -/
theorem parse_toString_never [DecidableEq ε] {T : CookieTexts ε}
    (hT : ∀ age, ';' ∉ T.maxAgeText age) {c : ResponseCookie ε} (hplain : Plain c) :
    ¬ RoundTrips T c := by
  intro h
  obtain ⟨n, c', hparse, hequals, -⟩ := h.parses
  obtain ⟨hversion, hencrypted⟩ := equals_fields hequals
  rw [parseSetCookie_encrypted hparse] at hencrypted
  cases hv : c.version with
  | version0 =>
      have hread := parse_toString_v0 hplain hv hencrypted hparse
      rw [hv, hread] at hversion
      cases hversion
  | version1 =>
      have hread := parse_toString_v1 hT hplain hv hencrypted hparse
      cases hread

/-- The cookie `a=b`. -/
def plainCookie : ResponseCookie Unit := { name := ['a'], value := ['b'] }

theorem plainCookie_plain : Plain plainCookie := by
  constructor <;> decide

theorem parse_toString_never_plainCookie :
    (∀ age, ';' ∉ noDates.maxAgeText age) ∧ Plain plainCookie ∧
      ¬ RoundTrips noDates plainCookie :=
  ⟨fun _ => List.not_mem_nil, plainCookie_plain,
    parse_toString_never (fun _ => List.not_mem_nil) plainCookie_plain⟩

/-- The text of `a=b` is not even valid. -/
theorem parse_toString_not_valid :
    ¬ ∀ (T : CookieTexts Unit) (c : ResponseCookie Unit), (∀ age, ';' ∉ T.maxAgeText age) →
      Plain c → RoundTrips T c := by
  intro h
  obtain ⟨n, c', hparse, -⟩ :=
    (h noDates plainCookie (fun _ => List.not_mem_nil) plainCookie_plain).parses
  have hread := parse_toString_v1 (fun _ => List.not_mem_nil) plainCookie_plain rfl rfl hparse
  cases hread

end Webpp.Http
