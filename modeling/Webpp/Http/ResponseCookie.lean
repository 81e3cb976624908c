import Webpp.Http.Cookie
import Webpp.Text.TokenizerWords

/-!
# Response cookies

`parse_set_cookie` reads the text of a `Set-Cookie` header into a cookie, `to_string` writes
one. Dates and the encryption of values are parameters: the source leaves them to the
standard library and to functions that it does not define.
-/

namespace Webpp.Http

open Loop Webpp.Text

inductive CookieVersion where
  | version0
  | version1
  deriving DecidableEq, Repr

inductive SameSite where
  | notSpecified
  | none
  | lax
  | strict
  deriving DecidableEq, Repr

/-- The least value of `long`: no age is set. -/
def maxAgeExistenceValue : ℤ := -2 ^ 63

/-- `response_cookie`, with dates of type `ε`. -/
structure ResponseCookie (ε : Type) where
  name : List Char := []
  value : List Char := []
  domain : List Char := []
  path : List Char := []
  expires : Option ε := none
  comment : List Char := []
  priority : List Char := []
  maxAge : ℤ := maxAgeExistenceValue
  sameSite : SameSite := .notSpecified
  secure : Bool := false
  httpOnly : Bool := false
  encrypted : Bool := false
  isPrefix : Bool := false
  version : CookieVersion := .version1
  attrs : List (List Char × List Char) := []
  deriving DecidableEq

/-- What the cookies use of the standard library, and the encryption of values. -/
structure CookieTexts (ε : Type) where
  parseExpires : List Char → ε
  expiresText : ε → List Char
  /-- `append_to` of an age, which is made a floating point number first. -/
  maxAgeText : ℤ → List Char
  encryptedValue : List Char → List Char

variable {ε : Type}

/-! ## Reading -/

def toLowerCopy (c : Char) : Char :=
  if 'A' ≤ c ∧ c ≤ 'Z' then Char.ofNat (c.toNat + 32) else c

/-- `iequals_sl`: the second text is in lower case. -/
def iequalsSl (str lowered : List Char) : Bool := str.map toLowerCopy == lowered

/-- The character as a digit; a `char` is signed. -/
def charDigit (c : Char) : ℤ := ((c.toNat : ℤ) - 48).bmod (2 ^ 8)

/-- `to<long>`, which takes every character for a digit. -/
def toLong (str : List Char) : ℤ :=
  let digits := if str.head? = some '-' ∨ str.head? = some '+' then str.tail else str
  let ret := digits.foldl (fun ret c => (ret * 10 + charDigit c).bmod (2 ^ 64)) 0
  if str.head? = some '-' then (-ret).bmod (2 ^ 64) else ret

/-- `attrs.emplace`, which keeps an attribute that is there. -/
def emplaceAttr (key value : List Char) (c : ResponseCookie ε) : ResponseCookie ε :=
  if c.attrs.any fun attr => attr.1 == key then c else { c with attrs := c.attrs ++ [(key, value)] }

/-- The value of an attribute, whether all of the cookie is valid so far, and the cookie. -/
structure AttributeState (ε : Type) where
  value : List Char
  valid : Bool
  cookie : ResponseCookie ε

/-- An attribute that is not known. -/
def AttributeState.emplace (s : AttributeState ε) (key : List Char) : AttributeState ε :=
  { s with cookie := emplaceAttr key s.value s.cookie }

/-- `samesite`. -/
def setSameSite (key : List Char) (s : AttributeState ε) : AttributeState ε :=
  let s := { s with value := rtrim s.value }
  if iequalsSl s.value ['s', 't', 'r', 'i', 'c', 't'] then
    { s with cookie := { s.cookie with sameSite := .strict } }
  else if iequalsSl s.value ['l', 'a', 'x'] then
    { s with cookie := { s.cookie with sameSite := .lax } }
  else if iequalsSl s.value ['n', 'o', 'n', 'e'] then
    { s with cookie := { s.cookie with sameSite := .none } }
  else { s.emplace key with valid := false }

/-- `version`. -/
def setVersion (key : List Char) (s : AttributeState ε) : AttributeState ε :=
  let s := { s with value := rtrim s.value }
  if s.value = ['0'] then { s with cookie := { s.cookie with version := .version0 } }
  else if s.value = ['1'] then { s with cookie := { s.cookie with version := .version1 } }
  else { s.emplace key with valid := false }

/-- `max_age(val)`, which takes the place of a date. -/
def setMaxAge (age : ℤ) (c : ResponseCookie ε) : ResponseCookie ε :=
  { c with maxAge := age, expires := none }

/-- The switch over the first character of a key, with the comparisons behind it. -/
def setAttribute (T : CookieTexts ε) (key : List Char) (s : AttributeState ε) :
    AttributeState ε :=
  let trimmed := rtrim s.value
  match key.head?.map toLowerCopy with
  | some 'e' =>
      if iequalsSl key ['e', 'x', 'p', 'i', 'r', 'e', 's'] then
        { s with cookie := { s.cookie with expires := some (T.parseExpires s.value) } }
      else s.emplace key
  | some 'c' =>
      if iequalsSl key ['c', 'o', 'm', 'm', 'e', 'n', 't'] then
        { s with value := trimmed, cookie := { s.cookie with comment := trimmed } }
      else s.emplace key
  | some 'd' =>
      if iequalsSl key ['d', 'o', 'm', 'a', 'i', 'n'] then
        { s with value := trimmed, cookie := { s.cookie with domain := trimmed } }
      else s.emplace key
  | some 'p' =>
      if iequalsSl key ['p', 'a', 't', 'h'] then
        { s with value := trimmed, cookie := { s.cookie with path := trimmed } }
      else if iequalsSl key ['p', 'r', 'i', 'o', 'r', 'i', 't', 'y'] then
        { s with value := trimmed, cookie := { s.cookie with priority := trimmed } }
      else s.emplace key
  | some 's' =>
      if iequalsSl key ['s', 'e', 'c', 'u', 'r', 'e'] then
        { s with cookie := { s.cookie with secure := true } }
      else if iequalsSl key ['s', 'a', 'm', 'e', 's', 'i', 't', 'e'] then setSameSite key s
      else s.emplace key
  | some 'h' =>
      if iequalsSl key ['h', 't', 't', 'p', 'o', 'n', 'l', 'y'] then
        { s with cookie := { s.cookie with httpOnly := true } }
      else s.emplace key
  | some 'm' =>
      if iequalsSl key ['m', 'a', 'x', '-', 'a', 'g', 'e'] then
        { s with cookie := setMaxAge (toLong s.value) s.cookie }
      else s.emplace key
  | some 'v' =>
      if iequalsSl key ['v', 'e', 'r', 's', 'i', 'o', 'n'] then setVersion key s
      else s.emplace key
  | _ => s.emplace key

/-- `OWS` and the semicolon. -/
def semicolon (c : Char) : Bool := c == ' ' || c == '\t' || c == ';'

/-- `OWS` and the equals sign. -/
def eqChar (c : Char) : Bool := c == ' ' || c == '\t' || c == '='

/-- The variables of the attribute loop; the key and the value stay from one iteration to
the next. -/
structure SetCookieState (ε : Type) where
  rest : List Char
  key : List Char
  value : List Char
  valid : Bool
  cookie : ResponseCookie ε

/-- The key, where there is one. -/
def readKey (s : SetCookieState ε) : SetCookieState ε :=
  let r := StringTokenizer.expect validCookieName (StringTokenizer.skip semicolon s.rest)
  if r.1 = [] then { s with rest := r.2, valid := false } else { s with rest := r.2, key := r.1 }

/-- The value behind an equals sign, up to a semicolon. -/
def readAttributeValue (s : SetCookieState ε) : SetCookieState ε :=
  let r := StringTokenizer.expect eqChar s.rest
  if r.1 = [] then s
  else
    match StringTokenizer.next (· == ';') r.2 with
    | some v => { s with rest := v.2, value := v.1 }
    | none => { s with rest := r.2, valid := false }

/-- One round of the attribute loop. -/
def setCookieStep (T : CookieTexts ε) (s : SetCookieState ε) :
    Except Unit (Flow (SetCookieState ε) (Bool × ResponseCookie ε)) :=
  if s.rest = [] then pure (.done (s.valid, s.cookie))
  else
    let s := readAttributeValue (readKey s)
    if s.key = [] then pure (.next { s with valid := false })
    else
      let r := setAttribute T s.key ⟨s.value, s.valid, s.cookie⟩
      pure (.next { s with value := r.value, valid := r.valid, cookie := r.cookie })

/-- The state before the attribute loop. -/
def startAttributes (c : ResponseCookie ε) (p : SePair) : SetCookieState ε :=
  ⟨StringTokenizer.skip semicolon p.str, [], [], true, { c with name := p.name, value := p.value }⟩

/-- `parse_set_cookie` on the cookie `c`, for at most `n` rounds of its loop. -/
def parseSetCookie (T : CookieTexts ε) (n : ℕ) (c : ResponseCookie ε) (src : List Char) :
    Except Unit (Bool × ResponseCookie ε) :=
  let p := parseSeValue ⟨src, c.name, c.value, true⟩
  if p.valid then loop (setCookieStep T) () n (startAttributes c p)
  else pure (false, { c with name := p.name, value := p.value })

/-! ## Writing -/

/-- `; key=value` and `; key="value"`. -/
def attributeText (quote : Bool) (key value : List Char) : List Char :=
  [';', ' '] ++ key ++ '=' :: (if quote then '"' :: value ++ ['"'] else value)

/-- An attribute that is left out when it is empty. -/
def optionalText (quote : Bool) (key value : List Char) : List Char :=
  if value = [] then [] else attributeText quote key value

def sameSiteText : SameSite → List Char
  | .none => [';', ' ', 'S', 'a', 'm', 'e', 'S', 'i', 't', 'e', '=', 'N', 'o', 'n', 'e']
  | .lax => [';', ' ', 'S', 'a', 'm', 'e', 'S', 'i', 't', 'e', '=', 'L', 'a', 'x']
  | .strict => [';', ' ', 'S', 'a', 'm', 'e', 'S', 'i', 't', 'e', '=', 'S', 't', 'r', 'i', 'c', 't']
  | .notSpecified => []

/-- The attributes that both versions write last. -/
def flagsText (c : ResponseCookie ε) : List Char :=
  sameSiteText c.sameSite ++
    (if c.secure then [';', ' ', 's', 'e', 'c', 'u', 'r', 'e'] else []) ++
    (if c.httpOnly then [';', ' ', 'H', 't', 't', 'p', 'O', 'n', 'l', 'y'] else [])

def domainKey : List Char := ['d', 'o', 'm', 'a', 'i', 'n']

def pathKey : List Char := ['p', 'a', 't', 'h']

def priorityKey : List Char := ['p', 'r', 'i', 'o', 'r', 'i', 't', 'y']

def commentKey : List Char := ['c', 'o', 'm', 'm', 'e', 'n', 't']

def expiresKey : List Char := ['e', 'x', 'p', 'i', 'r', 'e', 's']

def maxAgeKey : List Char := ['m', 'a', 'x', '-', 'a', 'g', 'e']

def versionKey : List Char := ['v', 'e', 'r', 's', 'i', 'o', 'n']

/-- `expires_string_to`, which writes nothing where there is no date. -/
def expiresStringTo (T : CookieTexts ε) (c : ResponseCookie ε) : List Char :=
  (c.expires.map T.expiresText).getD []

def valueText (T : CookieTexts ε) (c : ResponseCookie ε) : List Char :=
  if c.encrypted then T.encryptedValue c.value else c.value

/-- The attributes of a Netscape cookie. -/
def attributesV0 (T : CookieTexts ε) (c : ResponseCookie ε) : List Char :=
  optionalText false domainKey c.domain ++ optionalText false pathKey c.path ++
    optionalText false priorityKey c.priority ++
    (if c.maxAge ≠ maxAgeExistenceValue then
      attributeText false expiresKey (expiresStringTo T c) else []) ++
    flagsText c

/-- The attributes of an RFC 2109 cookie. -/
def attributesV1 (T : CookieTexts ε) (c : ResponseCookie ε) : List Char :=
  optionalText true commentKey c.comment ++ optionalText true domainKey c.domain ++
    optionalText true pathKey c.path ++ optionalText true priorityKey c.priority ++
    (if c.maxAge ≠ -1 then attributeText true maxAgeKey (T.maxAgeText c.maxAge)
      else if c.expires.isSome then attributeText false expiresKey (expiresStringTo T c)
      else []) ++
    flagsText c ++ attributeText true versionKey ['1']

/-- The attributes that are not known, in the order of the map. -/
def attrsText (attrs : List (List Char × List Char)) : List Char :=
  attrs.flatMap fun attr => attributeText false attr.1 attr.2

def toString (T : CookieTexts ε) (c : ResponseCookie ε) : List Char :=
  c.name ++ '=' :: (match c.version with
    | .version0 => valueText T c ++ attributesV0 T c
    | .version1 => '"' :: valueText T c ++ '"' :: attributesV1 T c) ++ attrsText c.attrs

/-- `operator==`, which leaves out the age. -/
def ResponseCookie.equals [DecidableEq ε] (c c' : ResponseCookie ε) : Bool :=
  decide ({ c with maxAge := 0, attrs := [] } = { c' with maxAge := 0, attrs := [] }) &&
    decide (c.attrs.Perm c'.attrs)

end Webpp.Http

/-!
## The setters of a response cookie

`apply` is what the methods of `response_cookie` do, `write` the change of the one field. They
differ in `max_age`, which takes a date away.
-/

namespace Webpp.Http

variable {ε : Type}

/-- The fields of `WEBPP_METHOD_TRIM`. -/
inductive CookieText where
  | name
  | value
  | domain
  | path
  | comment
  | priority
  deriving DecidableEq, Repr

namespace CookieText

def get (c : ResponseCookie ε) : CookieText → List Char
  | name => c.name
  | value => c.value
  | domain => c.domain
  | path => c.path
  | comment => c.comment
  | priority => c.priority

def set (c : ResponseCookie ε) (text : List Char) : CookieText → ResponseCookie ε
  | name => { c with name := text }
  | value => { c with value := text }
  | domain => { c with domain := text }
  | path => { c with path := text }
  | comment => { c with comment := text }
  | priority => { c with priority := text }

@[simp] theorem set_expires (c : ResponseCookie ε) (text : List Char) (f : CookieText) :
    (f.set c text).expires = c.expires := by
  cases f <;> rfl

@[simp] theorem set_maxAge (c : ResponseCookie ε) (text : List Char) (f : CookieText) :
    (f.set c text).maxAge = c.maxAge := by
  cases f <;> rfl

end CookieText

/-- The methods of `WEBPP_METHOD_STRS` and `WEBPP_METHOD_OTHERS` with one argument, and
`max_age`. -/
inductive CookieSetter (ε : Type) where
  | text (f : CookieText) (text : List Char)
  | sameSite (v : SameSite)
  | expires (v : ε)
  | secure (v : Bool)
  | isPrefix (v : Bool)
  | encrypted (v : Bool)
  | httpOnly (v : Bool)
  | version (v : CookieVersion)
  | maxAge (v : ℤ)

namespace CookieSetter

/-- The field of the setter has the new value, and all else is as it was. -/
def write (c : ResponseCookie ε) : CookieSetter ε → ResponseCookie ε
  | text f v => f.set c v
  | sameSite v => { c with sameSite := v }
  | expires v => { c with expires := some v }
  | secure v => { c with secure := v }
  | isPrefix v => { c with isPrefix := v }
  | encrypted v => { c with encrypted := v }
  | httpOnly v => { c with httpOnly := v }
  | version v => { c with version := v }
  | maxAge v => { c with maxAge := v }

/-- The setters of `response_cookie`. -/
def apply (c : ResponseCookie ε) : CookieSetter ε → ResponseCookie ε
  | maxAge v => setMaxAge v c
  | s => s.write c

/-- The setter is `max_age`. -/
def isMaxAge : CookieSetter ε → Bool
  | maxAge _ => true
  | _ => false

/-- A setter changes its own field only, but for `max_age` of a cookie with a date. -/
theorem apply_eq_write_iff (c : ResponseCookie ε) (s : CookieSetter ε) :
    s.apply c = s.write c ↔ (s.isMaxAge = true → c.expires = none) := by
  cases s with
  | maxAge v =>
      constructor
      · exact fun h _ => (congrArg ResponseCookie.expires h).symm
      · intro h
        rw [apply, write, setMaxAge, h rfl]
  | _ => exact iff_of_true rfl (fun h => absurd h Bool.false_ne_true)

end CookieSetter

end Webpp.Http
