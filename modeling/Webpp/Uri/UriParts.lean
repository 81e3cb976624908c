import Webpp.Uri.UriStringOrder

/-!
# The parts of a URI

A URI with an authority is put together from its parts, each of them a text of the characters
that its grammar allows. A percent sign may stand wherever an escaped octet may.
-/

namespace Webpp.Uri

open Text

/-! ## Characters -/

/-- `unreserved`, `sub-delims` and the percent sign. -/
def isRegNameChar (c : Char) : Bool :=
  alphaDigit c || "-._~!$&'()*+,;=%".toList.contains c

def isUserInfoChar (c : Char) : Bool := isRegNameChar c || c == ':'

def isPathChar (c : Char) : Bool := isUserInfoChar c || c == '@' || c == '/'

def isQueryChar (c : Char) : Bool := isPathChar c || c == '?'

def isIpv6Char (c : Char) : Bool := isHexDigit c || c == ':' || c == '.'

/-- A text with a delimiter in front, if it is there. -/
def delimited (delim : Char) : Option (List Char) → List Char
  | none => []
  | some text => delim :: text

/-! ## Parts -/

/-- `scheme "://" [user "@"] host [":" port] ["/" path] ["?" query] ["#" fragment]`. -/
structure UriParts where
  scheme : List Char
  userInfo : Option (List Char)
  host : List Char
  port : Option (List Char)
  path : Option (List Char)
  query : Option (List Char)
  fragment : Option (List Char)
  scheme_valid : scheme.head?.any asciiAlpha = true ∧ ∀ c ∈ scheme, schemeNotFirst c = true
  userInfo_valid : ∀ text ∈ userInfo, ∀ c ∈ text, isUserInfoChar c = true
  host_valid : (∀ c ∈ host, isRegNameChar c = true) ∨
    ∃ address, host = '[' :: (address ++ [']']) ∧ ∀ c ∈ address, isIpv6Char c = true
  port_valid : ∀ text ∈ port, ∀ c ∈ text, isDigit c = true
  path_valid : ∀ text ∈ path, ∀ c ∈ text, isPathChar c = true
  query_valid : ∀ text ∈ query, ∀ c ∈ text, isQueryChar c = true
  fragment_valid : ∀ text ∈ fragment, ∀ c ∈ text, isQueryChar c = true

namespace UriParts

/-- What is in front of the authority. -/
def front (p : UriParts) : List Char := p.scheme ++ "://".toList

/-- The delimiter behind the user information. -/
def userDelimiter (p : UriParts) : List Char := if p.userInfo.isSome then ['@'] else []

/-- The text in front of the host, or of the `@` of the user information. -/
def lead (p : UriParts) : List Char := p.front ++ p.userInfo.getD []

/-- The text from the `@` to the end of the port. -/
def hostPort (p : UriParts) : List Char := p.userDelimiter ++ (p.host ++ delimited ':' p.port)

/-- The text behind the authority. -/
def tail (p : UriParts) : List Char :=
  delimited '/' p.path ++ (delimited '?' p.query ++ delimited '#' p.fragment)

def text (p : UriParts) : List Char := p.lead ++ (p.hostPort ++ p.tail)

/-! ## Delimiters -/

theorem free_of_all {isValid : Char → Bool} {text chars : List Char}
    (h : ∀ c ∈ text, isValid c = true) (hchars : ∀ c ∈ chars, isValid c = false) :
    ∀ c ∈ text, c ∉ chars := by
  intro c hc hmem
  exact Bool.false_ne_true ((hchars c hmem).symm.trans (h c hc))

theorem free_of_delimited {delim : Char} {text : Option (List Char)} {chars : List Char}
    (hdelim : delim ∉ chars) (h : ∀ t ∈ text, ∀ c ∈ t, c ∉ chars) :
    ∀ c ∈ delimited delim text, c ∉ chars := by
  cases text with
  | none => exact fun c hc => absurd hc List.not_mem_nil
  | some t =>
      intro c hc
      rcases List.mem_cons.mp hc with rfl | hc
      · exact hdelim
      · exact h t rfl c hc

theorem free_mono {text chars chars' : List Char} (h : ∀ c ∈ text, c ∉ chars)
    (hchars : chars' ⊆ chars) : ∀ c ∈ text, c ∉ chars' :=
  fun c hc hmem => h c hc (hchars hmem)

theorem free_append {text text' chars : List Char} (h : ∀ c ∈ text, c ∉ chars)
    (h' : ∀ c ∈ text', c ∉ chars) : ∀ c ∈ text ++ text', c ∉ chars := by
  intro c hc
  rcases List.mem_append.mp hc with hc | hc
  · exact h c hc
  · exact h' c hc

section Free

variable (p : UriParts)

theorem front_free : ∀ c ∈ p.front, c ∉ ['@', '?', '#'] := by
  apply free_append (free_of_all p.scheme_valid.2 (by decide))
  decide

theorem userInfo_free : ∀ c ∈ p.userInfo.getD [], c ∉ ['@', '/', '?', '#', '[', ']'] := by
  have hvalid := p.userInfo_valid
  cases h : p.userInfo with
  | none => exact fun c hc => absurd hc List.not_mem_nil
  | some text => exact free_of_all (hvalid text h) (by decide)

theorem host_free : ∀ c ∈ p.host, c ∉ ['@', '/', '?', '#'] := by
  obtain hname | ⟨address, hhost, haddress⟩ := p.host_valid
  · exact free_of_all hname (by decide)
  · rw [hhost]
    have hopen : ∀ c ∈ ['['], c ∉ ['@', '/', '?', '#'] := by decide
    have hclose : ∀ c ∈ [']'], c ∉ ['@', '/', '?', '#'] := by decide
    exact free_append hopen (free_append (free_of_all haddress (by decide)) hclose)

theorem port_free : ∀ c ∈ delimited ':' p.port, c ∉ ['@', '/', '?', '#', '[', ']'] :=
  free_of_delimited (by decide) fun t ht => free_of_all (p.port_valid t ht) (by decide)

theorem userDelimiter_free : ∀ c ∈ p.userDelimiter, c ∉ [':', '/', '?', '#', '[', ']'] := by
  rw [userDelimiter]
  split <;> decide

theorem hostPort_free : ∀ c ∈ p.hostPort, c ∉ ['/', '?', '#'] := by
  exact free_append (free_mono p.userDelimiter_free (by decide))
    (free_append (free_mono p.host_free (by decide)) (free_mono p.port_free (by decide)))

theorem path_free : ∀ c ∈ delimited '/' p.path, c ∉ ['?', '#', '[', ']'] :=
  free_of_delimited (by decide) fun t ht => free_of_all (p.path_valid t ht) (by decide)

theorem query_free : ∀ c ∈ delimited '?' p.query, c ∉ ['#', '[', ']'] :=
  free_of_delimited (by decide) fun t ht => free_of_all (p.query_valid t ht) (by decide)

theorem fragment_free : ∀ c ∈ delimited '#' p.fragment, c ∉ ['[', ']'] :=
  free_of_delimited (by decide) fun t ht => free_of_all (p.fragment_valid t ht) (by decide)

/-! ## The offsets that are always right -/

theorem text_eq_scheme :
    p.text = p.scheme ++ ':' :: ('/' :: '/' :: (p.userInfo.getD [] ++ (p.hostPort ++ p.tail))) := by
  rw [text, lead, front]
  simp

theorem schemeOf_text :
    schemeOf p.text = ⟨p.scheme.length, p.front.length, false⟩ := by
  have hfront : p.front.length = p.scheme.length + 3 := List.length_append
  have hscheme : ∀ c ∈ p.scheme, c ∉ [':'] := free_of_all p.scheme_valid.2 (by decide)
  have hcolon : findFirstOf [':'] p.text = some p.scheme.length := by
    rw [p.text_eq_scheme]
    exact findFirstOf_append_cons hscheme (List.mem_singleton_self ':')
  have htake : p.text.take p.scheme.length = p.scheme := by
    rw [p.text_eq_scheme]
    exact List.take_left
  have hdrop : p.text.drop (p.scheme.length + 1) =
      '/' :: '/' :: (p.userInfo.getD [] ++ (p.hostPort ++ p.tail)) := by
    rw [p.text_eq_scheme, ← List.drop_drop, List.drop_left]
    rfl
  obtain ⟨halpha, hrest⟩ := p.scheme_valid
  have hhead : p.text.head?.any asciiAlpha = true := by
    rw [p.text_eq_scheme]
    cases h : p.scheme with
    | nil =>
        rw [h] at halpha
        cases halpha
    | cons c scheme =>
        rw [h] at halpha
        exact halpha
  have hnone : ((p.scheme.drop 1).findIdx? fun c => !schemeNotFirst c) = none := by
    rw [List.findIdx?_eq_none_iff]
    intro c hc
    rw [hrest c (List.mem_of_mem_drop hc)]
    rfl
  have hslash : ¬ p.text.take 2 = ['/', '/'] := by
    intro h
    cases htext : p.text with
    | nil =>
        rw [htext] at h
        cases h
    | cons c text =>
        rw [htext] at h hhead
        have hc : c = '/' := (List.cons.inj h).1
        rw [hc] at hhead
        exact absurd hhead (by decide : ¬ asciiAlpha '/' = true)
  rw [schemeOf, if_neg hslash, hcolon]
  dsimp only
  rw [hhead, htake, hnone, hdrop, hfront]
  rfl

/-- The text in front of the query. -/
def beforeQuery (p : UriParts) : List Char :=
  p.lead ++ (p.hostPort ++ delimited '/' p.path)

/-- The text in front of the fragment. -/
def beforeFragment (p : UriParts) : List Char := p.beforeQuery ++ delimited '?' p.query

theorem text_eq_fragment : p.text = p.beforeFragment ++ delimited '#' p.fragment := by
  rw [text, beforeFragment, beforeQuery, tail]
  simp only [List.append_assoc]

theorem beforeQuery_free : ∀ c ∈ p.beforeQuery, c ∉ ['?', '#'] :=
  free_append (free_append (free_mono p.front_free (by decide))
      (free_mono p.userInfo_free (by decide)))
    (free_append (free_mono p.hostPort_free (by decide)) (free_mono p.path_free (by decide)))

theorem beforeFragment_free : ∀ c ∈ p.beforeFragment, c ∉ ['#'] :=
  free_append (free_mono p.beforeQuery_free (by decide)) (free_mono p.query_free (by decide))

theorem fragmentStartOf_text : fragmentStartOf p.text = p.beforeFragment.length := by
  rw [fragmentStartOf, p.text_eq_fragment]
  cases p.fragment with
  | none =>
      rw [delimited, List.append_nil, findFirstOf_eq_none_iff.mpr p.beforeFragment_free]
      rfl
  | some text =>
      rw [delimited, findFirstOf_append_cons p.beforeFragment_free (List.mem_singleton_self '#')]
      rfl

theorem queryStartOf_text :
    queryStartOf p.text p.beforeFragment.length =
      if p.query.isSome then p.beforeQuery.length else p.text.length := by
  have hfree := free_mono p.beforeQuery_free (by decide : ['?'] ⊆ ['?', '#'])
  have htake : p.text.take p.beforeFragment.length = p.beforeFragment := by
    rw [p.text_eq_fragment, List.take_left]
  rw [queryStartOf, htake, beforeFragment]
  cases p.query with
  | none =>
      rw [delimited, List.append_nil, findFirstOf_eq_none_iff.mpr hfree]
      rfl
  | some text =>
      rw [delimited, findFirstOf_append_cons hfree (List.mem_singleton_self '?')]
      rfl

end Free

end UriParts

end Webpp.Uri
