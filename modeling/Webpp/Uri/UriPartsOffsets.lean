import Webpp.Uri.UriParts

/-!
# The offsets of the parts

Which offsets are found on the text of a URI that is put together from parts. The user
information is wrong where an `@` behind the authority is taken for its delimiter, the path is
wrong where its delimiter is found behind an `@` or in the fragment, and the port is wrong where
the text behind the authority ends like a port.
-/

namespace Webpp.Uri

open Text

variable {before behind : List Char} {text : List Char}

/-! ## The search for a port -/

section Port

variable {data pre hostPort post : List Char} {authorityStart userInfoEnd authorityEnd : ℕ}

theorem span_hostPort (hdata : data = pre ++ (hostPort ++ post))
    (hend : authorityEnd = (pre ++ hostPort).length) :
    span data pre.length authorityEnd = hostPort := by
  rw [hend, hdata, span_append]

theorem portStartOf_absent (hdata : data = pre ++ (hostPort ++ post))
    (hstart : (if userInfoEnd ≠ data.length then userInfoEnd else authorityStart) = pre.length)
    (hend : authorityEnd = (pre ++ hostPort).length)
    (h : (∀ c ∈ hostPort, c ∉ [':', ']']) ∨ hostPort.getLast? = some ']') :
    (portStartOf data authorityStart userInfoEnd authorityEnd).1 = data.length := by
  rw [portStartOf, hstart]
  dsimp only
  rw [span_hostPort hdata hend]
  rcases h with h | h
  · rw [findLastOf_eq_none_iff.mpr h]
  · cases findLastOf [':', ']'] hostPort with
    | none => rfl
    | some i =>
        dsimp only
        rw [if_pos h]

theorem portStartOf_behind {c : Char} (hdata : data = pre ++ ((before ++ c :: behind) ++ post))
    (hstart : (if userInfoEnd ≠ data.length then userInfoEnd else authorityStart) = pre.length)
    (hend : authorityEnd = (pre ++ (before ++ c :: behind)).length) (hc : c ∈ [':', ']'])
    (hbehind : ∀ x ∈ behind, x ∉ [':', ']']) (hlast : (before ++ c :: behind).getLast? ≠ some ']') :
    (portStartOf data authorityStart userInfoEnd authorityEnd).1 =
      if isDigits behind then (pre ++ before).length else data.length := by
  have hcut : pre ++ (before ++ c :: behind) = (pre ++ (before ++ [c])) ++ behind := by simp
  have hlength : before.length + pre.length + 1 = (pre ++ (before ++ [c])).length := by
    simp
    omega
  have hview : span data (before.length + pre.length + 1) authorityEnd = behind := by
    rw [hend, hcut, hlength, hdata, ← List.append_assoc, hcut, List.append_assoc, span_append]
  rw [portStartOf, hstart]
  dsimp only
  rw [span_hostPort hdata hend, findLastOf_append_cons hc hbehind]
  dsimp only
  rw [if_neg hlast, hview, List.length_append, Nat.add_comm pre.length]
  cases behind with
  | nil => rfl
  | cons x behind =>
      rw [List.isEmpty_cons, if_neg Bool.false_ne_true]
      cases isDigits (x :: behind) <;> rfl

end Port

namespace UriParts

variable (p : UriParts)

/-! ## The user information -/

/-- The text from the start of the authority on. -/
def rest : List Char := p.userInfo.getD [] ++ (p.hostPort ++ p.tail)

theorem text_eq_rest : p.text = p.front ++ p.rest := by
  rw [text, lead, rest]
  simp only [List.append_assoc]

theorem drop_front : p.text.drop p.front.length = p.rest := by
  rw [p.text_eq_rest, List.drop_left]

theorem front_lt_length_iff : p.front.length < p.text.length ↔ p.rest ≠ [] := by
  rw [p.text_eq_rest, List.length_append, ← List.length_pos_iff_ne_nil]
  omega

theorem length_eq : p.text.length = p.lead.length + (p.hostPort.length + p.tail.length) := by
  rw [UriParts.text, List.length_append, List.length_append]

/-- Where the user information ends, or the size of the text if there is none. -/
def userInfoAt : ℕ := if p.userInfo.isSome then p.lead.length else p.text.length

theorem userInfoAt_of_none (h : p.userInfo = none) : p.userInfoAt = p.text.length := by
  rw [userInfoAt, h]
  rfl

theorem userInfoAt_of_some (h : p.userInfo = some text) :
    p.userInfoAt = p.lead.length := by
  rw [userInfoAt, h]
  rfl

/-- The user information is not empty and does not start with a colon. Where there is none, no
`@` behind the authority is found, and there is a host in front of the port. -/
def UserInfoSeen : Prop :=
  match p.userInfo with
  | some text => text ≠ [] ∧ text.head? ≠ some ':'
  | none => (p.host.head? = some '[' ∨ '@' ∉ p.tail) ∧ (p.host ≠ [] ∨ p.port = none)

theorem front_length_pos : 0 < p.front.length := by
  rw [front, List.length_append]
  exact Nat.lt_add_left _ (by decide)

theorem front_length_le : p.front.length ≤ p.text.length := by
  rw [p.text_eq_rest, List.length_append]
  exact Nat.le_add_right _ _

section UserInfo

variable {text : List Char}

theorem rest_of_some (h : p.userInfo = some text) :
    p.rest = text ++ '@' :: ((p.host ++ delimited ':' p.port) ++ p.tail) := by
  rw [rest, hostPort, userDelimiter, h]
  rfl

theorem rest_of_none (h : p.userInfo = none) :
    p.rest = p.host ++ (delimited ':' p.port ++ p.tail) := by
  rw [rest, hostPort, userDelimiter, h]
  exact List.append_assoc p.host (delimited ':' p.port) p.tail

theorem lead_length_of_some (h : p.userInfo = some text) :
    p.lead.length = text.length + p.front.length := by
  rw [lead, h, List.length_append, Nat.add_comm]
  rfl

theorem userInfoEnd_of_some (h : p.userInfo = some text) :
    userInfoEndOf p.text p.front.length p.text.length = p.lead.length ↔
      text ≠ [] ∧ text.head? ≠ some ':' := by
  have hrest := p.rest_of_some h
  have hne : p.front.length ≠ p.text.length := by
    refine (p.front_lt_length_iff.mpr ?_).ne
    rw [hrest]
    simp
  have hfree := p.userInfo_free
  rw [h] at hfree
  rw [userInfoEndOf_eq _ hne, span_length p.front_length_le, p.drop_front,
    p.lead_length_of_some h, hrest]
  have hzero : ∀ {c : Char} {post : List Char}, c ∈ [':', '[', '@'] → c ≠ '[' →
      ((separatorOf (c :: post)).map (placeOf p.front.length (c :: post))).getD p.text.length ≠
        text.length + p.front.length := by
    intro c post hc hbracket
    rw [separatorOf_front hc hbracket]
    exact (Nat.lt_add_left _ p.front_length_pos).ne
  constructor
  · intro heq
    constructor
    · rintro rfl
      exact hzero (by simp) (by simp) heq
    · intro hcolon
      obtain ⟨post, rfl⟩ := List.head?_eq_some_iff.mp hcolon
      exact hzero (by simp) (by simp) heq
  · rintro ⟨hnil, hcolon⟩
    rw [separatorOf_at hnil hcolon (free_mono hfree (by decide)), Option.map_some,
      Option.getD_some, placeOf, if_pos]
    refine ⟨fun hlength => hnil (List.length_eq_zero_iff.mp hlength), ?_⟩
    rw [List.getElem?_append_right le_rfl, Nat.sub_self, List.getElem?_cons_zero]

theorem tail_head_ne {c : Char} (hc : c ∉ ['/', '?', '#']) : p.tail.head? ≠ some c := by
  simp only [List.mem_cons, List.not_mem_nil, or_false, not_or] at hc
  rw [tail]
  cases p.path with
  | some path => exact fun h => hc.1 (Option.some.inj h).symm
  | none =>
      cases p.query with
      | some query => exact fun h => hc.2.1 (Option.some.inj h).symm
      | none =>
          cases p.fragment with
          | some fragment => exact fun h => hc.2.2 (Option.some.inj h).symm
          | none => exact Option.some_ne_none c ∘ Eq.symm

theorem tail_free : ∀ c ∈ p.tail, c ∉ ['[', ']'] :=
  free_append (free_mono p.path_free (by decide))
    (free_append (free_mono p.query_free (by decide)) p.fragment_free)

theorem host_cases :
    (∀ c ∈ p.host, c ∉ [':', '@', '[', ']', '/', '?', '#']) ∨
      ∃ address, p.host = '[' :: (address ++ [']']) ∧ ∀ c ∈ address, c ∉ ['@', '[', ']'] := by
  obtain hname | ⟨address, hhost, haddress⟩ := p.host_valid
  · exact .inl (free_of_all hname (by decide))
  · exact .inr ⟨address, hhost, free_of_all haddress (by decide)⟩

theorem userInfoEnd_of_none (h : p.userInfo = none) :
    userInfoEndOf p.text p.front.length p.text.length = p.text.length ↔
      (p.host.head? = some '[' ∨ '@' ∉ p.tail) ∧ (p.host ≠ [] ∨ p.port = none) := by
  rw [userInfoEndOf_eq_length_iff p.front_length_le, p.drop_front, p.rest_of_none h]
  obtain hname | ⟨address, hhost, -⟩ := p.host_cases
  · have hopen : p.host.head? ≠ some '[' := by
      intro hhead
      exact hname '[' (List.mem_of_head? hhead) (by simp)
    have hfree : ∀ c ∈ p.host ++ (delimited ':' p.port ++ p.tail), c ∉ ['['] :=
      free_append (free_mono hname (by decide))
        (free_append (free_mono p.port_free (by decide)) (free_mono p.tail_free (by decide)))
    constructor
    · intro hsep
      constructor
      · right
        intro hat
        refine separatorOf_isSome (List.mem_append_right _ (List.mem_append_right _ hat)) ?_ hsep
        exact fun hhead => hfree '[' (List.mem_of_head? hhead) (List.mem_singleton_self _)
      · by_contra hno
        rw [not_or, not_not] at hno
        obtain ⟨port, hport⟩ := Option.ne_none_iff_exists'.mp hno.2
        rw [hno.1, hport, List.nil_append, delimited, List.cons_append,
          separatorOf_front (by simp) (by simp)] at hsep
        cases hsep
    · rintro ⟨hat, hport⟩
      have hat : '@' ∉ p.tail := hat.resolve_left hopen
      apply separatorOf_eq_none
      · cases hhost : p.host with
        | nil =>
            rw [hport.resolve_left (not_not_intro hhost), List.nil_append]
            exact p.tail_head_ne (by decide)
        | cons c host =>
            intro hcolon
            rw [List.cons_append, List.head?_cons, Option.some.injEq] at hcolon
            exact hname c (hhost ▸ List.mem_cons_self) (by simp [hcolon])
      · have htail : ∀ c ∈ p.tail, c ∉ ['[', '@'] := by
          intro c hc hmem
          rw [List.mem_cons, List.mem_singleton] at hmem
          rcases hmem with rfl | rfl
          · exact p.tail_free '[' hc (by simp)
          · exact hat hc
        exact free_append (free_mono hname (by decide))
          (free_append (free_mono p.port_free (by decide)) htail)
  · rw [hhost]
    refine iff_of_true (separatorOf_bracket _) ⟨.inl rfl, .inl (List.cons_ne_nil _ _)⟩

end UserInfo

theorem userInfoEnd_iff :
    userInfoEndOf p.text p.front.length p.text.length = p.userInfoAt ↔ p.UserInfoSeen := by
  rw [UserInfoSeen]
  cases h : p.userInfo with
  | none =>
      rw [p.userInfoAt_of_none h]
      exact p.userInfoEnd_of_none h
  | some text =>
      rw [p.userInfoAt_of_some h]
      exact p.userInfoEnd_of_some h

/-! ## The start of the path -/

/-- What is looked for behind the start of the search. -/
def pathDelimiter : Char := if isUrn p.scheme then ':' else '/'

/-- Where a search for the path ends. -/
def searchStop : ℕ := if p.query.isSome then p.beforeQuery.length else p.text.length

/-- Where a search for the path starts: at the first `@`, wherever it is. -/
def searchStart : ℕ := (findFrom '@' p.front.length p.text).getD p.front.length

/-- The start of the path that is found. -/
def foundPath : ℕ := authorityEndOf p.text p.scheme.length p.front.length p.searchStop

theorem scheme_length_lt : p.scheme.length < p.text.length := by
  rw [p.text_eq_scheme, List.length_append, List.length_cons]
  omega

theorem hasUrnScheme_text : hasUrnScheme p.text p.scheme.length = isUrn p.scheme := by
  have htake : p.text.take p.scheme.length = p.scheme := by
    rw [p.text_eq_scheme, List.take_left]
  rw [hasUrnScheme, htake, bne_iff_ne.mpr p.scheme_length_lt.ne, Bool.true_and]

theorem foundPath_eq (hrest : p.rest ≠ []) :
    p.foundPath =
      ((findFirstOf [p.pathDelimiter] (span p.text p.searchStart p.searchStop)).map
        (· + (p.searchStart + (isUrn p.scheme).toNat))).getD p.text.length := by
  rw [foundPath, authorityEndOf_eq (p.front_lt_length_iff.mpr hrest).ne, p.hasUrnScheme_text,
    ← pathDelimiter, ← searchStart]
  cases findFirstOf [p.pathDelimiter] (span p.text p.searchStart p.searchStop) with
  | none => rfl
  | some i => rfl

/-- The part of the text behind the path in which a path is looked for. -/
def seen : List Char := if p.query.isSome then [] else delimited '#' p.fragment

theorem searchStart_of_at (h : p.userInfo.isSome ∨ '@' ∉ p.tail) :
    p.searchStart = p.lead.length := by
  cases huser : p.userInfo with
  | some text =>
      have htext : p.text = p.lead ++ '@' :: ((p.host ++ delimited ':' p.port) ++ p.tail) := by
        rw [p.text_eq_rest, p.rest_of_some huser, lead, huser]
        exact (List.append_assoc _ _ _).symm
      have hlead : '@' ∉ p.lead := by
        intro hin
        rcases List.mem_append.mp hin with hin | hin
        · exact p.front_free '@' hin (by simp)
        · exact p.userInfo_free '@' hin (by simp)
      have hle : p.front.length ≤ p.lead.length := by
        rw [p.lead_length_of_some huser]
        exact Nat.le_add_left _ _
      rw [searchStart, htext, findFrom_append_cons hle hlead, Option.getD_some]
  | none =>
      rw [huser] at h
      have hat : '@' ∉ p.tail := h.resolve_left Bool.false_ne_true
      have hnone : findFrom '@' p.front.length p.text = none := by
        rw [findFrom_eq_none_iff, p.drop_front, p.rest_of_none huser]
        intro hin
        rcases List.mem_append.mp hin with hin | hin
        · exact p.host_free '@' hin (by simp)
        · rcases List.mem_append.mp hin with hin | hin
          · exact p.port_free '@' hin (by simp)
          · exact hat hin
      rw [searchStart, hnone, Option.getD_none, lead, huser, Option.getD_none, List.append_nil]

theorem span_search :
    span p.text p.lead.length p.searchStop = p.hostPort ++ (delimited '/' p.path ++ p.seen) := by
  rw [searchStop, seen]
  cases h : p.query with
  | some query =>
      have htext : p.text = p.lead ++ ((p.hostPort ++ delimited '/' p.path) ++
          (delimited '?' p.query ++ delimited '#' p.fragment)) := by
        rw [text, tail]
        simp only [List.append_assoc]
      rw [Option.isSome_some, if_pos rfl, if_pos rfl, beforeQuery, htext, span_append,
        List.append_nil]
  | none =>
      have hle : p.lead.length ≤ p.text.length := by
        rw [text, List.length_append]
        exact Nat.le_add_right _ _
      rw [Option.isSome_none, if_neg Bool.false_ne_true, if_neg Bool.false_ne_true,
        span_length hle, text, List.drop_left, tail, h]
      rfl

/-- Where the path starts, or the size of the text if there is none. -/
def pathAt : ℕ := if p.path.isSome then (p.lead ++ p.hostPort).length else p.text.length

theorem pathAt_of_none (h : p.path = none) : p.pathAt = p.text.length := by
  rw [pathAt, h]
  rfl

theorem pathAt_of_some (h : p.path = some text) :
    p.pathAt = (p.lead ++ p.hostPort).length := by
  rw [pathAt, h]
  rfl

theorem hostPort_getLast_ne (h : p.port = none) : p.hostPort.getLast? ≠ some ':' := by
  rw [hostPort, h, delimited, List.append_nil, List.getLast?_append]
  intro hlast
  rw [Option.or_eq_some_iff] at hlast
  rcases hlast with hlast | ⟨-, hlast⟩
  · obtain hname | ⟨address, hhost, -⟩ := p.host_cases
    · exact hname ':' (List.mem_of_getLast? hlast) (by simp)
    · rw [hhost, ← List.cons_append, List.getLast?_concat] at hlast
      cases hlast
  · exact p.userDelimiter_free ':' (List.mem_of_getLast? hlast) (by simp)

/-- For a `urn`, the path is found behind the first colon. -/
theorem first_colon_iff (post : List Char) :
    (∃ i, findFirstOf [':'] (p.hostPort ++ post) = some i ∧ i + 1 = p.hostPort.length) ↔
      p.port = some [] ∧ ':' ∉ p.host := by
  constructor
  · rintro ⟨i, hi, hlength⟩
    obtain ⟨c, hc, hmem⟩ := getElem?_of_findFirstOf hi
    rw [List.mem_singleton.mp hmem, List.getElem?_append_left (by omega)] at hc
    cases hport : p.port with
    | none =>
        refine absurd ?_ (p.hostPort_getLast_ne hport)
        rw [List.getLast?_eq_getElem?, ← hlength, Nat.add_sub_cancel, hc]
    | some port =>
        have hsplit : p.hostPort = (p.userDelimiter ++ p.host) ++ ':' :: port := by
          rw [hostPort, hport, delimited, List.append_assoc]
        have hle : ∀ {k : ℕ}, p.hostPort[k]? = some ':' → i ≤ k := by
          intro k hk
          refine le_of_findFirstOf hi ?_ (List.mem_singleton_self ':')
          rw [List.getElem?_append_left (List.getElem?_eq_some_iff.mp hk).1, hk]
        have hat : i ≤ (p.userDelimiter ++ p.host).length := by
          apply hle
          rw [hsplit, List.getElem?_append_right le_rfl, Nat.sub_self, List.getElem?_cons_zero]
        rw [hsplit, List.length_append, List.length_cons] at hlength
        constructor
        · rw [List.length_eq_zero_iff.mp (by omega : port.length = 0)]
        · intro hin
          obtain ⟨k, hk⟩ := List.mem_iff_getElem?.mp (List.mem_append_right p.userDelimiter hin)
          have hkl := (List.getElem?_eq_some_iff.mp hk).1
          have hik : i ≤ k := by
            apply hle
            rw [hsplit, List.getElem?_append_left hkl, hk]
          omega
  · rintro ⟨hport, hhost⟩
    have hfree : ∀ c ∈ p.userDelimiter ++ p.host, c ∉ [':'] := by
      refine free_append (free_mono p.userDelimiter_free (by decide)) fun c hc hmem => ?_
      rw [List.mem_singleton.mp hmem] at hc
      exact hhost hc
    refine ⟨(p.userDelimiter ++ p.host).length, ?_, ?_⟩
    · rw [hostPort, hport, delimited, ← List.append_assoc, List.append_assoc _ [':'] _]
      exact findFirstOf_append_cons hfree (List.mem_singleton_self ':')
    · rw [hostPort, hport]
      simp [delimited, Nat.add_assoc]

theorem tail_ne_nil (h : p.path = some text) : 0 < p.tail.length := by
  rw [tail, h, delimited, List.cons_append, List.length_cons]
  exact Nat.succ_pos _

theorem foundPath_of_some (hrest : p.rest ≠ []) (hpath : p.path = some text)
    (hat : p.userInfo.isSome ∨ '@' ∉ p.tail) :
    p.foundPath = (p.lead ++ p.hostPort).length ↔
      (isUrn p.scheme = true → p.port = some [] ∧ ':' ∉ p.host) := by
  rw [p.foundPath_eq hrest, p.searchStart_of_at hat, p.span_search, hpath, pathDelimiter]
  cases hurn : isUrn p.scheme with
  | false =>
      have hfree := free_mono p.hostPort_free (by decide : ['/'] ⊆ ['/', '?', '#'])
      have hfound : findFirstOf [if false = true then ':' else '/']
          (p.hostPort ++ (delimited '/' (some text) ++ p.seen)) = some p.hostPort.length :=
        findFirstOf_append_cons hfree (List.mem_singleton_self '/')
      rw [hfound, Option.map_some, Option.getD_some, List.length_append, Nat.add_comm]
      exact iff_of_true rfl fun h => absurd h Bool.false_ne_true
  | true =>
      rw [if_pos rfl, ← p.first_colon_iff ('/' :: (text ++ p.seen))]
      have htail := p.tail_ne_nil hpath
      have hlength := p.length_eq
      rw [List.length_append]
      cases hfirst : findFirstOf [':'] (p.hostPort ++ '/' :: (text ++ p.seen)) with
      | none =>
          have hnone : findFirstOf [':'] (p.hostPort ++ (delimited '/' (some text) ++ p.seen)) =
              none := hfirst
          rw [hnone, Option.map_none, Option.getD_none]
          refine iff_of_false (by omega) fun h => ?_
          obtain ⟨i, hi, -⟩ := h rfl
          cases hi
      | some i =>
          have hsome : findFirstOf [':'] (p.hostPort ++ (delimited '/' (some text) ++ p.seen)) =
              some i := hfirst
          rw [hsome, Option.map_some, Option.getD_some, Bool.toNat_true]
          constructor
          · exact fun h _ => ⟨i, rfl, by omega⟩
          · intro h
            obtain ⟨j, hj, hlength⟩ := h rfl
            cases hj
            omega

/-- Where an `@` behind the authority is taken for its delimiter, the search starts there. -/
theorem searchStart_of_not_at (huser : p.userInfo = none)
    (htail : p.tail = before ++ '@' :: behind) (hbefore : '@' ∉ before) :
    p.searchStart = (p.lead ++ (p.hostPort ++ before)).length := by
  have htext : p.text = (p.lead ++ (p.hostPort ++ before)) ++ '@' :: behind := by
    rw [text, htail]
    simp only [List.append_assoc]
  have hfree : '@' ∉ p.lead ++ (p.hostPort ++ before) := by
    rw [lead, hostPort, userDelimiter, huser]
    intro hin
    simp only [Option.getD_none, List.append_nil, Option.isSome_none, List.mem_append] at hin
    rcases hin with hin | (hin | hin | hin) | hin
    · exact p.front_free '@' hin (by simp)
    · exact absurd hin (by simp)
    · exact p.host_free '@' hin (by simp)
    · exact p.port_free '@' hin (by simp)
    · exact hbefore hin
  have hle : p.front.length ≤ (p.lead ++ (p.hostPort ++ before)).length := by
    rw [lead, List.length_append, List.length_append]
    omega
  rw [searchStart, htext, findFrom_append_cons hle hfree, Option.getD_some]

/-- A tail does not start with an `@`. -/
theorem before_ne_nil (htail : p.tail = before ++ '@' :: behind) :
    0 < before.length := by
  rw [List.length_pos_iff_ne_nil]
  rintro rfl
  have hhead : p.tail.head? ≠ some '@' := p.tail_head_ne (by decide)
  rw [htail] at hhead
  exact hhead rfl

theorem foundPath_ne_of_not_at (hrest : p.rest ≠ [])
    (huser : p.userInfo = none) (htail : p.tail = before ++ '@' :: behind)
    (hbefore : '@' ∉ before) : p.foundPath ≠ (p.lead ++ p.hostPort).length := by
  have hpos := p.before_ne_nil htail
  have hlength := p.length_eq
  have htl : p.tail.length = before.length + (behind.length + 1) := by
    rw [htail, List.length_append, List.length_cons]
  rw [p.foundPath_eq hrest, p.searchStart_of_not_at huser htail hbefore, List.length_append,
    List.length_append, List.length_append]
  cases findFirstOf [p.pathDelimiter] _ with
  | none =>
      rw [Option.map_none, Option.getD_none]
      omega
  | some i =>
      rw [Option.map_some, Option.getD_some]
      omega

theorem span_search_of_not_at (huser : p.userInfo = none)
    (hpath : p.path = none) (htail : p.tail = before ++ '@' :: behind)
    (hbefore : '@' ∉ before) : span p.text p.searchStart p.searchStop = '@' :: behind := by
  have htext : p.text = (p.lead ++ (p.hostPort ++ before)) ++ '@' :: behind := by
    rw [text, htail]
    simp only [List.append_assoc]
  have hdrop : p.text.drop p.searchStart = '@' :: behind := by
    rw [p.searchStart_of_not_at huser htail hbefore, htext, List.drop_left]
  have hle : p.searchStart ≤ p.text.length := by
    rw [p.searchStart_of_not_at huser htail hbefore, htext]
    exact (List.prefix_append _ _).length_le
  rw [searchStop]
  split
  · have hpos := p.before_ne_nil htail
    have hlt : p.beforeQuery.length < p.searchStart := by
      rw [p.searchStart_of_not_at huser htail hbefore, beforeQuery, hpath, delimited,
        List.append_nil, List.length_append, List.length_append, List.length_append]
      omega
    rw [span, if_pos hlt, hdrop]
  · rw [span_length hle, hdrop]

/-! ## The start of the port -/

/-- Where the port starts, or the size of the text if there is none. -/
def portAt : ℕ :=
  if p.port.isSome then (p.lead ++ (p.userDelimiter ++ p.host)).length else p.text.length

theorem portAt_of_none (h : p.port = none) : p.portAt = p.text.length := by
  rw [portAt, h]
  rfl

theorem portAt_of_some {port : List Char} (h : p.port = some port) :
    p.portAt = (p.lead ++ (p.userDelimiter ++ p.host)).length := by
  rw [portAt, h]
  rfl

/-- The port that is found in front of an end of the authority. -/
def foundPort (authorityEnd : ℕ) : ℕ :=
  (portStartOf p.text p.front.length p.userInfoAt authorityEnd).1

/-- The text ends in a colon and digits, or in a colon. -/
def EndsLikePort (text : List Char) : Prop :=
  ∃ before behind, text = before ++ ':' :: behind ∧ isDigits behind = true

theorem hostPort_start :
    (if p.userInfoAt ≠ p.text.length then p.userInfoAt else p.front.length) = p.lead.length := by
  cases h : p.userInfo with
  | none =>
      rw [p.userInfoAt_of_none h, if_neg (not_not_intro rfl), lead, h, Option.getD_none,
        List.append_nil]
  | some text =>
      have hpos : 0 < p.hostPort.length := by
        rw [hostPort, userDelimiter, h]
        simp
      have hlength := p.length_eq
      rw [p.userInfoAt_of_some h, if_pos (by omega)]

theorem isDigits_free {digits : List Char} (h : isDigits digits = true) :
    ∀ c ∈ digits, c ∉ [':', ']'] :=
  free_of_all (List.all_eq_true.mp h) (by decide)

theorem getLast?_ne_bracket {before text : List Char} (hne : text ≠ [])
    (h : ∀ c ∈ text, c ∉ [']']) : (before ++ text).getLast? ≠ some ']' := by
  rw [List.getLast?_append_of_ne_nil _ hne]
  exact fun hlast => h ']' (List.mem_of_getLast? hlast) (List.mem_singleton_self _)

theorem getLast?_colon_ne (h : ∀ c ∈ behind, c ∉ [']']) :
    (before ++ ':' :: behind).getLast? ≠ some ']' := by
  refine getLast?_ne_bracket (List.cons_ne_nil _ _) fun c hc => ?_
  rcases List.mem_cons.mp hc with rfl | hc
  · decide
  · exact h c hc

theorem foundPort_of_end {authorityEnd : ℕ} (h : authorityEnd = (p.lead ++ p.hostPort).length) :
    p.foundPort authorityEnd = p.portAt := by
  rw [foundPort]
  cases hport : p.port with
  | none =>
      rw [p.portAt_of_none hport]
      refine portStartOf_absent rfl p.hostPort_start h ?_
      have hhost : p.hostPort = p.userDelimiter ++ p.host := by
        rw [hostPort, hport, delimited, List.append_nil]
      rw [hhost]
      obtain hname | ⟨address, haddress, -⟩ := p.host_cases
      · exact .inl (free_append (free_mono p.userDelimiter_free (by decide))
          (free_mono hname (by decide)))
      · right
        rw [haddress, ← List.cons_append, ← List.append_assoc, List.getLast?_concat]
  | some port =>
      have hdigits : isDigits port = true := List.all_eq_true.mpr (p.port_valid port hport)
      have hhost : p.hostPort = (p.userDelimiter ++ p.host) ++ ':' :: port := by
        rw [hostPort, hport, delimited, List.append_assoc]
      have htext : p.text = p.lead ++ (((p.userDelimiter ++ p.host) ++ ':' :: port) ++ p.tail) :=
        hhost ▸ rfl
      rw [hhost] at h
      rw [p.portAt_of_some hport, portStartOf_behind htext p.hostPort_start h (by simp)
        (isDigits_free hdigits)
        (getLast?_colon_ne (free_mono (isDigits_free hdigits) (by decide))), if_pos hdigits]

/-! Without a path, the search for the port goes to the end of the text. -/

theorem text_eq_end : p.text = p.lead ++ ((p.hostPort ++ p.tail) ++ []) := by
  rw [List.append_nil]
  rfl

theorem foundPort_of_colon (htail : p.tail = before ++ ':' :: behind) (hbehind : ':' ∉ behind) :
    p.foundPort p.text.length =
      if isDigits behind then (p.lead ++ (p.hostPort ++ before)).length else p.text.length := by
  have hcut : p.hostPort ++ p.tail = (p.hostPort ++ before) ++ ':' :: behind := by
    rw [htail, List.append_assoc]
  have htext : p.text = p.lead ++ (((p.hostPort ++ before) ++ ':' :: behind) ++ []) :=
    hcut ▸ p.text_eq_end
  have hend : p.text.length = (p.lead ++ ((p.hostPort ++ before) ++ ':' :: behind)).length :=
    congrArg List.length (htext.trans (by rw [List.append_nil]))
  have hbracket : ∀ c ∈ behind, c ∉ [']'] := by
    intro c hc
    refine free_mono p.tail_free (by decide) c ?_
    rw [htail]
    exact List.mem_append_right _ (List.mem_cons_of_mem _ hc)
  have hfree : ∀ c ∈ behind, c ∉ [':', ']'] := by
    intro c hc hmem
    rcases List.mem_cons.mp hmem with rfl | hmem
    · exact hbehind hc
    · exact hbracket c hc hmem
  rw [foundPort, portStartOf_behind htext p.hostPort_start hend (by simp) hfree
    (getLast?_colon_ne hbracket)]

theorem tail_not_digits (hne : p.tail ≠ []) (hpath : p.path = none) (digits : List Char) :
    isDigits (digits ++ p.tail) = false := by
  rw [tail, hpath] at hne ⊢
  rw [isDigits, List.all_append, Bool.and_eq_false_iff]
  right
  cases hquery : p.query with
  | some query => rfl
  | none =>
      cases hfragment : p.fragment with
      | some fragment => rfl
      | none =>
          rw [hquery, hfragment] at hne
          exact absurd rfl hne

/-- A query or a fragment without a colon hides the port. -/
theorem foundPort_of_no_colon (hne : p.tail ≠ []) (hpath : p.path = none)
    (hcolon : ':' ∉ p.tail) : p.foundPort p.text.length = p.text.length := by
  have hfree : ∀ c ∈ p.tail, c ∉ [':', ']'] := by
    intro c hc hmem
    rcases List.mem_cons.mp hmem with rfl | hmem
    · exact hcolon hc
    · exact free_mono p.tail_free (by decide) c hc hmem
  have hend : ∀ part : List Char, p.hostPort ++ p.tail = part →
      p.text = p.lead ++ (part ++ []) ∧ p.text.length = (p.lead ++ part).length := by
    rintro part rfl
    exact ⟨p.text_eq_end, congrArg List.length (p.text_eq_end.trans (by rw [List.append_nil]))⟩
  rw [foundPort]
  cases hport : p.port with
  | some port =>
      have hcut : p.hostPort ++ p.tail =
          (p.userDelimiter ++ p.host) ++ ':' :: (port ++ p.tail) := by
        rw [hostPort, hport, delimited]
        simp only [List.append_assoc, List.cons_append]
      obtain ⟨htext, hlength⟩ := hend _ hcut
      have hdigits : isDigits port = true := List.all_eq_true.mpr (p.port_valid port hport)
      have hbehind := free_append (isDigits_free hdigits) hfree
      rw [portStartOf_behind htext p.hostPort_start hlength (by simp) hbehind
        (getLast?_colon_ne (free_mono hbehind (by decide))), p.tail_not_digits hne hpath,
        if_neg Bool.false_ne_true]
  | none =>
      obtain hname | ⟨address, haddress, -⟩ := p.host_cases
      · obtain ⟨htext, hlength⟩ := hend _ rfl
        refine portStartOf_absent htext p.hostPort_start hlength (.inl ?_)
        rw [hostPort, hport, delimited, List.append_nil]
        exact free_append (free_append (free_mono p.userDelimiter_free (by decide))
          (free_mono hname (by decide))) hfree
      · have hcut : p.hostPort ++ p.tail =
            (p.userDelimiter ++ '[' :: address) ++ ']' :: p.tail := by
          rw [hostPort, hport, delimited, haddress]
          simp
        obtain ⟨htext, hlength⟩ := hend _ hcut
        have hlast : ((p.userDelimiter ++ '[' :: address) ++ ']' :: p.tail).getLast? ≠
            some ']' := by
          have hsplit : (p.userDelimiter ++ '[' :: address) ++ ']' :: p.tail =
              ((p.userDelimiter ++ '[' :: address) ++ [']']) ++ p.tail := by simp
          rw [hsplit]
          exact getLast?_ne_bracket hne (free_mono p.tail_free (by decide))
        rw [portStartOf_behind htext p.hostPort_start hlength (by simp) hfree hlast]
        have hdigits := p.tail_not_digits hne hpath []
        rw [List.nil_append] at hdigits
        rw [hdigits, if_neg Bool.false_ne_true]

theorem foundPort_of_tail_nil (h : p.tail = []) : p.foundPort p.text.length = p.portAt := by
  refine p.foundPort_of_end ?_
  rw [text, h, List.append_nil]

theorem exists_last_colon (h : ':' ∈ text) :
    ∃ before behind, text = before ++ ':' :: behind ∧ ':' ∉ behind := by
  cases hlast : findLastOf [':'] text with
  | none => exact absurd (List.mem_singleton_self _) (findLastOf_eq_none_iff.mp hlast ':' h)
  | some i =>
      obtain ⟨before, c, behind, rfl, -, hc, hfree⟩ := exists_of_findLastOf hlast
      rw [List.mem_singleton.mp hc]
      exact ⟨before, behind, rfl, fun hin => hfree ':' hin (List.mem_singleton_self _)⟩

theorem endsLikePort_iff (h : ':' ∉ behind) :
    EndsLikePort (before ++ ':' :: behind) ↔ isDigits behind = true := by
  have hlast : ∀ {pre post : List Char}, ':' ∉ post →
      findLastOf [':'] (pre ++ ':' :: post) = some pre.length := fun hpost =>
    findLastOf_append_cons (List.mem_singleton_self _) fun c hc hmem =>
      hpost (List.mem_singleton.mp hmem ▸ hc)
  constructor
  · rintro ⟨pre, digits, heq, hdigits⟩
    have hfree : ':' ∉ digits := fun hin => isDigits_free hdigits ':' hin (by simp)
    have hlength : before.length = pre.length := by
      have hfirst : findLastOf [':'] (before ++ ':' :: behind) = some before.length := hlast h
      rw [heq, hlast hfree, Option.some.injEq] at hfirst
      exact hfirst.symm
    rw [(List.cons.inj (List.append_inj_right heq hlength)).2]
    exact hdigits
  · exact fun hdigits => ⟨before, behind, rfl, hdigits⟩

theorem not_endsLikePort (h : ':' ∉ text) : ¬ EndsLikePort text := by
  rintro ⟨before, behind, rfl, -⟩
  exact h (by simp)

theorem foundPort_of_none (hport : p.port = none) (hpath : p.path = none) :
    p.foundPort p.text.length = p.text.length ↔ ¬ EndsLikePort p.tail := by
  by_cases htail : p.tail = []
  · rw [p.foundPort_of_tail_nil htail, p.portAt_of_none hport, htail]
    exact iff_of_true rfl (not_endsLikePort List.not_mem_nil)
  · by_cases hcolon : ':' ∈ p.tail
    · obtain ⟨before, behind, heq, hbehind⟩ := exists_last_colon hcolon
      have hlength := p.length_eq
      have hlt := congrArg List.length heq
      rw [List.length_append, List.length_cons] at hlt
      rw [p.foundPort_of_colon heq hbehind, heq, endsLikePort_iff hbehind]
      cases isDigits behind with
      | false => exact iff_of_true rfl Bool.false_ne_true
      | true =>
          refine iff_of_false ?_ (not_not_intro rfl)
          rw [if_pos rfl, List.length_append, List.length_append]
          omega
    · exact iff_of_true (p.foundPort_of_no_colon htail hpath hcolon) (not_endsLikePort hcolon)

theorem foundPort_of_some {port : List Char} (hport : p.port = some port)
    (hpath : p.path = none) : p.foundPort p.text.length = p.portAt ↔ p.tail = [] := by
  constructor
  · intro h
    by_contra htail
    have hlength := p.length_eq
    have hhost : p.hostPort.length = (p.userDelimiter ++ p.host).length + (port.length + 1) := by
      rw [hostPort, hport, ← List.append_assoc, List.length_append]
      rfl
    rw [p.portAt_of_some hport, List.length_append] at h
    by_cases hcolon : ':' ∈ p.tail
    · obtain ⟨before, behind, heq, hbehind⟩ := exists_last_colon hcolon
      rw [p.foundPort_of_colon heq hbehind] at h
      split at h
      · rw [List.length_append, List.length_append] at h
        omega
      · omega
    · rw [p.foundPort_of_no_colon htail hpath hcolon] at h
      omega
  · exact p.foundPort_of_tail_nil

/-! ## No path -/

/-- Where a path is looked for, if there is neither a path nor a port. -/
def searched : List Char :=
  if p.userInfo = none ∧ '@' ∈ p.tail then p.tail.dropWhile (· ≠ '@') else p.host ++ p.seen

theorem foundPath_eq_length_iff (hrest : p.rest ≠ []) (hlast : p.text.getLast? ≠ some ':') :
    p.foundPath = p.text.length ↔
      p.pathDelimiter ∉ span p.text p.searchStart p.searchStop := by
  rw [p.foundPath_eq hrest]
  cases hfirst : findFirstOf [p.pathDelimiter] (span p.text p.searchStart p.searchStop) with
  | none =>
      refine iff_of_true rfl fun hin => ?_
      exact findFirstOf_eq_none_iff.mp hfirst _ hin (List.mem_singleton_self _)
  | some i =>
      obtain ⟨c, hc, hmem⟩ := getElem?_of_findFirstOf hfirst
      rw [List.mem_singleton.mp hmem] at hc
      refine iff_of_false (fun heq => ?_) (not_not_intro (List.mem_of_getElem? hc))
      have hat := getElem?_of_span hc
      have hlt := (List.getElem?_eq_some_iff.mp hat).1
      rw [Option.map_some, Option.getD_some] at heq
      cases hurn : isUrn p.scheme with
      | false =>
          rw [hurn, Bool.toNat_false] at heq
          omega
      | true =>
          rw [hurn, Bool.toNat_true] at heq
          rw [pathDelimiter, hurn, if_pos rfl] at hat
          refine hlast ?_
          rw [List.getLast?_eq_getElem?, ← hat]
          congr 1
          omega

theorem text_getLast_ne (hrest : p.rest ≠ []) (hport : p.port = none)
    (hends : ¬ EndsLikePort p.tail) : p.text.getLast? ≠ some ':' := by
  intro hlast
  rw [text, List.getLast?_append, List.getLast?_append, Option.or_eq_some_iff,
    Option.or_eq_some_iff, Option.or_eq_none_iff] at hlast
  rcases hlast with (hlast | ⟨-, hlast⟩) | ⟨⟨htail, hhost⟩, -⟩
  · obtain ⟨before, hbefore⟩ := List.getLast?_eq_some_iff.mp hlast
    exact hends ⟨before, [], hbefore, rfl⟩
  · exact p.hostPort_getLast_ne hport hlast
  · rw [List.getLast?_eq_none_iff] at htail hhost
    refine hrest ?_
    rw [hostPort, userDelimiter] at hhost
    rw [rest, hostPort, userDelimiter, hhost, htail]
    cases huser : p.userInfo with
    | none => rfl
    | some text =>
        rw [huser] at hhost
        exact absurd hhost (List.cons_ne_nil _ _)

theorem foundPath_of_none (hrest : p.rest ≠ []) (hpath : p.path = none) (hport : p.port = none)
    (hends : ¬ EndsLikePort p.tail) :
    p.foundPath = p.text.length ↔ p.pathDelimiter ∉ p.searched := by
  rw [p.foundPath_eq_length_iff hrest (p.text_getLast_ne hrest hport hends), searched]
  have hdelim : p.pathDelimiter ≠ '@' := by
    rw [pathDelimiter]
    split <;> decide
  by_cases hat : p.userInfo.isSome ∨ '@' ∉ p.tail
  · have hnot : ¬ (p.userInfo = none ∧ '@' ∈ p.tail) := by
      rintro ⟨huser, hin⟩
      rw [huser] at hat
      exact (hat.resolve_left Bool.false_ne_true) hin
    have huser : p.pathDelimiter ∉ p.userDelimiter := by
      rw [userDelimiter]
      split
      · exact mt List.mem_singleton.mp hdelim
      · exact List.not_mem_nil
    rw [if_neg hnot, p.searchStart_of_at hat, p.span_search, hpath, hostPort, hport]
    simp only [delimited, List.append_nil, List.nil_append, List.mem_append, huser, false_or]
  · rw [not_or, not_not] at hat
    have huser : p.userInfo = none := Option.not_isSome_iff_eq_none.mp hat.1
    obtain ⟨before, behind, htail, hbefore⟩ := List.eq_append_cons_of_mem hat.2
    have hdrop : p.tail.dropWhile (· ≠ '@') = '@' :: behind := by
      rw [htail, List.dropWhile_append_of_pos, List.dropWhile_cons_of_neg (by simp)]
      intro c hc
      rw [decide_eq_true_iff]
      rintro rfl
      exact hbefore hc
    rw [if_pos ⟨huser, hat.2⟩, p.span_search_of_not_at huser hpath htail hbefore, hdrop]

theorem foundPath_of_empty_port (hrest : p.rest ≠ []) (hport : p.port = some [])
    (htail : p.tail = []) :
    p.foundPath = p.text.length ↔ (isUrn p.scheme = true → ':' ∉ p.host) := by
  have hlength := p.length_eq
  have hnil := htail
  rw [tail, List.append_eq_nil_iff, List.append_eq_nil_iff] at hnil
  have hseen : p.seen = [] := by
    rw [seen, hnil.2.2, ite_self]
  have hat : '@' ∉ p.tail := htail ▸ List.not_mem_nil
  rw [p.foundPath_eq hrest, p.searchStart_of_at (.inr hat), p.span_search, hnil.1, hseen,
    pathDelimiter]
  cases hurn : isUrn p.scheme with
  | false =>
      have hnone : findFirstOf [if false = true then ':' else '/'] (p.hostPort ++ ([] ++ [])) =
          none := by
        rw [List.append_nil, List.append_nil]
        exact findFirstOf_eq_none_iff.mpr (free_mono p.hostPort_free (by decide))
      rw [hnone]
      exact iff_of_true rfl fun h => absurd h Bool.false_ne_true
  | true =>
      have hiff := p.first_colon_iff ([] ++ [])
      rw [hport] at hiff
      rw [if_pos rfl]
      cases hfirst : findFirstOf [':'] (p.hostPort ++ ([] ++ [])) with
      | none =>
          refine absurd (List.mem_singleton_self _) (findFirstOf_eq_none_iff.mp hfirst ':' ?_)
          rw [hostPort, hport, delimited]
          simp
      | some i =>
          rw [hfirst] at hiff
          rw [Option.map_some, Option.getD_some, Bool.toNat_true, hlength, htail, List.length_nil]
          constructor
          · exact fun h _ => (hiff.mp ⟨i, rfl, by omega⟩).2
          · intro h
            obtain ⟨j, hj, hjl⟩ := hiff.mpr ⟨rfl, h rfl⟩
            cases hj
            omega

/-! ## All offsets -/

/-- The parts can be told apart in the text: there is something behind the slashes; the user
information is seen; in front of a path, there is no `@` but the delimiter of the user
information, and for a `urn` the authority ends in its only colon; without a path, a port is
empty and ends the text, and without a port the text does not end like one and nothing in it
looks like a path. -/
structure Readable : Prop where
  authority : p.rest ≠ []
  userInfo : p.UserInfoSeen
  path :
    match p.path, p.port with
    | some _, port => (p.userInfo.isSome ∨ '@' ∉ p.tail) ∧
        (isUrn p.scheme = true → port = some [] ∧ ':' ∉ p.host)
    | none, some port => port = [] ∧ p.tail = [] ∧ (isUrn p.scheme = true → ':' ∉ p.host)
    | none, none => ¬ EndsLikePort p.tail ∧ p.pathDelimiter ∉ p.searched

/-- The offsets that are found are the ones of the parts. A port is not found to its end if the
text ends with it. -/
structure OffsetsRight : Prop where
  authority : p.rest ≠ []
  userInfo : userInfoEndOf p.text p.front.length p.text.length = p.userInfoAt
  path : p.foundPath = p.pathAt
  port : p.foundPort p.pathAt = p.portAt
  complete : p.path = none → ∀ port ∈ p.port, port = []

theorem foundPath_iff_of_some (hrest : p.rest ≠ []) (hpath : p.path = some text) :
    p.foundPath = (p.lead ++ p.hostPort).length ↔
      (p.userInfo.isSome ∨ '@' ∉ p.tail) ∧
        (isUrn p.scheme = true → p.port = some [] ∧ ':' ∉ p.host) := by
  by_cases hat : p.userInfo.isSome ∨ '@' ∉ p.tail
  · rw [p.foundPath_of_some hrest hpath hat]
    exact (and_iff_right hat).symm
  · refine iff_of_false ?_ fun h => hat h.1
    rw [not_or, not_not] at hat
    obtain ⟨before, behind, htail, hbefore⟩ := List.eq_append_cons_of_mem hat.2
    exact p.foundPath_ne_of_not_at hrest (Option.not_isSome_iff_eq_none.mp hat.1) htail hbefore

theorem offsetsRight_iff : p.OffsetsRight ↔ p.Readable := by
  suffices h : p.rest ≠ [] →
      ((p.foundPath = p.pathAt ∧ p.foundPort p.pathAt = p.portAt ∧
          (p.path = none → ∀ port ∈ p.port, port = [])) ↔
        match p.path, p.port with
        | some _, port => (p.userInfo.isSome ∨ '@' ∉ p.tail) ∧
            (isUrn p.scheme = true → port = some [] ∧ ':' ∉ p.host)
        | none, some port => port = [] ∧ p.tail = [] ∧ (isUrn p.scheme = true → ':' ∉ p.host)
        | none, none => ¬ EndsLikePort p.tail ∧ p.pathDelimiter ∉ p.searched) by
    constructor
    · rintro ⟨hrest, huser, hpath, hport, hcomplete⟩
      exact ⟨hrest, p.userInfoEnd_iff.mp huser, (h hrest).mp ⟨hpath, hport, hcomplete⟩⟩
    · rintro ⟨hrest, huser, hpath⟩
      obtain ⟨hpath, hport, hcomplete⟩ := (h hrest).mpr hpath
      exact ⟨hrest, p.userInfoEnd_iff.mpr huser, hpath, hport, hcomplete⟩
  intro hrest
  cases hpath : p.path with
  | some text =>
      rw [p.pathAt_of_some hpath, p.foundPath_iff_of_some hrest hpath]
      constructor
      · exact fun h => h.1
      · exact fun h => ⟨h, p.foundPort_of_end rfl, fun hnone => nomatch hnone⟩
  | none =>
      rw [p.pathAt_of_none hpath]
      cases hport : p.port with
      | some port =>
          rw [p.foundPort_of_some hport hpath]
          constructor
          · rintro ⟨hfound, htail, hcomplete⟩
            have hnil : port = [] := hcomplete rfl port rfl
            rw [hnil] at hport
            exact ⟨hnil, htail, (p.foundPath_of_empty_port hrest hport htail).mp hfound⟩
          · rintro ⟨rfl, htail, hurn⟩
            refine ⟨(p.foundPath_of_empty_port hrest hport htail).mpr hurn, htail, ?_⟩
            rintro - port hmem
            exact (Option.some.inj hmem).symm
      | none =>
          rw [p.portAt_of_none hport, p.foundPort_of_none hport hpath]
          constructor
          · rintro ⟨hfound, hends, -⟩
            exact ⟨hends, (p.foundPath_of_none hrest hpath hport hends).mp hfound⟩
          · rintro ⟨hends, hdelim⟩
            exact ⟨(p.foundPath_of_none hrest hpath hport hends).mpr hdelim, hends,
              fun _ port hmem => nomatch hmem⟩

end UriParts

end Webpp.Uri
