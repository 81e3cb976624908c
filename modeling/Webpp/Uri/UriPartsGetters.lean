import Webpp.Uri.UriPartsOffsets

/-!
# The getters on the text of a URI

The getters return the parts that a URI was put together from if and only if the parts can be
told apart in the text (`Readable`): the offsets that are found decide on every getter, and the
getters on the offsets.
-/

namespace Webpp.Uri

open Text UriString

namespace UriParts

variable {port : List Char} {query : List Char}

/-- The raw getters return the parts, and a part that is absent is empty. -/
structure ReturnsParts (p : UriParts) : Prop where
  scheme : Getter.scheme.first p.text = .text p.scheme
  hasScheme : Getter.hasScheme.first p.text = .flag true
  userInfo : Getter.userInfoRaw.first p.text = .text (p.userInfo.getD [])
  hasUserInfo : Getter.hasUserInfo.first p.text = .flag p.userInfo.isSome
  host : Getter.hostRaw.first p.text = .text p.host
  hasHost : Getter.hasHost.first p.text = .flag (!p.host.isEmpty)
  port : Getter.port.first p.text = .text (p.port.getD [])
  hasPort : Getter.hasPort.first p.text = .flag p.port.isSome
  path : Getter.pathRaw.first p.text = .text (delimited '/' p.path)
  hasPath : Getter.hasPath.first p.text = .flag p.path.isSome
  queries : Getter.queriesRaw.first p.text = .text (p.query.getD [])
  hasQueries : Getter.hasQueries.first p.text = .flag p.query.isSome
  fragment : Getter.fragment.first p.text = .text (p.fragment.getD [])
  hasFragment : Getter.hasFragment.first p.text = .flag p.fragment.isSome

variable (p : UriParts)

/-! ## The offsets -/

theorem offset_schemeEnd : (located p.text).offset schemeEnd = p.scheme.length := by
  change (schemeOf p.text).schemeEnd = _
  rw [p.schemeOf_text]

theorem offset_authorityStart :
    (located p.text).offset UriString.authorityStart = p.front.length := by
  change (schemeOf p.text).authorityStart = _
  rw [p.schemeOf_text]

theorem offset_fragmentStart :
    (located p.text).offset fragmentStart = p.beforeFragment.length :=
  p.fragmentStartOf_text

theorem offset_queryStart : (located p.text).offset queryStart = p.searchStop := by
  change queryStartOf p.text (fragmentStartOf p.text) = _
  rw [p.fragmentStartOf_text, p.queryStartOf_text, searchStop]

theorem offset_userInfoEnd :
    (located p.text).offset userInfoEnd =
      userInfoEndOf p.text p.front.length p.text.length := by
  change userInfoEndOf p.text (schemeOf p.text).authorityStart p.text.length = _
  rw [p.schemeOf_text]

theorem offset_authorityEnd : (located p.text).offset authorityEnd = p.foundPath := by
  change authorityEndOf p.text (schemeOf p.text).schemeEnd (schemeOf p.text).authorityStart
    (queryStartOf p.text (fragmentStartOf p.text)) = _
  rw [p.fragmentStartOf_text, p.queryStartOf_text, p.schemeOf_text]
  rfl

theorem offset_portStart (hrest : p.rest ≠ []) :
    (located p.text).offset portStart =
      (portStartOf p.text p.front.length
        (userInfoEndOf p.text p.front.length p.text.length) p.foundPath).1 := by
  have hne : (schemeOf p.text).authorityStart ≠ p.text.length := by
    rw [p.schemeOf_text]
    exact (p.front_lt_length_iff.mpr hrest).ne
  rw [offset, (located_port_of_ne hne).1, p.offset_authorityStart, p.offset_userInfoEnd,
    p.offset_authorityEnd]
  rfl

/-! ## The scheme, the query and the fragment -/

theorem first_scheme : Getter.scheme.first p.text = .text p.scheme := by
  rw [Getter.first_eq_located (by decide)]
  change Answer.text (if (located p.text).offset schemeEnd = p.text.length then []
    else p.text.take ((located p.text).offset schemeEnd)) = _
  rw [p.offset_schemeEnd, if_neg p.scheme_length_lt.ne, p.text_eq_scheme, List.take_left]

theorem first_hasScheme : Getter.hasScheme.first p.text = .flag true := by
  rw [Getter.first_eq_located (by decide)]
  change Answer.flag (!((located p.text).offset schemeEnd == p.text.length &&
    (located p.text).offset schemeEnd != 0)) = _
  rw [p.offset_schemeEnd, beq_eq_false_iff_ne.mpr p.scheme_length_lt.ne]
  rfl

theorem text_eq_query (h : p.query = some query) :
    p.text = (p.beforeQuery ++ ['?']) ++ (query ++ delimited '#' p.fragment) := by
  rw [p.text_eq_fragment, beforeFragment, h, delimited]
  simp only [List.append_assoc, List.cons_append, List.nil_append]

theorem beforeQuery_length_lt (h : p.query = some query) :
    p.beforeQuery.length < p.text.length := by
  rw [p.text_eq_query h, List.length_append, List.length_append]
  exact Nat.lt_add_right _ (Nat.lt_succ_self _)

theorem searchStop_of_some (h : p.query = some query) :
    p.searchStop = p.beforeQuery.length := by
  rw [searchStop, h]
  rfl

theorem searchStop_of_none (h : p.query = none) : p.searchStop = p.text.length := by
  rw [searchStop, h]
  rfl

theorem first_queriesRaw : Getter.queriesRaw.first p.text = .text (p.query.getD []) := by
  rw [Getter.first_eq_located (by decide)]
  change Answer.text (if (located p.text).offset queryStart = p.text.length then []
    else span p.text ((located p.text).offset queryStart + 1)
      ((located p.text).offset fragmentStart)) = _
  rw [p.offset_queryStart, p.offset_fragmentStart]
  cases h : p.query with
  | none => rw [p.searchStop_of_none h, if_pos rfl, Option.getD_none]
  | some query =>
      have hpre : p.beforeQuery.length + 1 = (p.beforeQuery ++ ['?']).length := by simp
      have hend : p.beforeFragment.length = ((p.beforeQuery ++ ['?']) ++ query).length := by
        rw [beforeFragment, h, delimited, List.append_assoc]
        rfl
      rw [p.searchStop_of_some h, if_neg (p.beforeQuery_length_lt h).ne, hpre, hend,
        p.text_eq_query h, span_append, Option.getD_some]

theorem first_hasQueries : Getter.hasQueries.first p.text = .flag p.query.isSome := by
  rw [Getter.first_eq_located (by decide)]
  change Answer.flag ((located p.text).offset queryStart != p.text.length) = _
  rw [p.offset_queryStart]
  cases h : p.query with
  | none =>
      rw [p.searchStop_of_none h, bne_self_eq_false]
      rfl
  | some query =>
      rw [p.searchStop_of_some h, bne_iff_ne.mpr (p.beforeQuery_length_lt h).ne]
      rfl

theorem first_fragment : Getter.fragment.first p.text = .text (p.fragment.getD []) := by
  rw [Getter.first_eq_located (by decide)]
  change Answer.text (p.text.drop ((located p.text).offset fragmentStart + 1)) = _
  rw [p.offset_fragmentStart, ← List.drop_drop, p.text_eq_fragment, List.drop_left]
  cases p.fragment <;> rfl

theorem first_hasFragment : Getter.hasFragment.first p.text = .flag p.fragment.isSome := by
  rw [Getter.first_eq_located (by decide)]
  change Answer.flag ((located p.text).offset fragmentStart != p.text.length) = _
  rw [p.offset_fragmentStart, p.text_eq_fragment, List.length_append]
  cases p.fragment with
  | none => exact congrArg Answer.flag (bne_self_eq_false _)
  | some fragment =>
      have hne : p.beforeFragment.length ≠
          p.beforeFragment.length + (delimited '#' (some fragment)).length :=
        (Nat.lt_add_of_pos_right (Nat.succ_pos _)).ne
      rw [bne_iff_ne.mpr hne]
      rfl

/-! ## The other getters -/

section Authority

variable {p}

theorem front_length_ne (hrest : p.rest ≠ []) : p.front.length ≠ p.text.length :=
  (p.front_lt_length_iff.mpr hrest).ne

theorem first_userInfoRaw (hrest : p.rest ≠ []) :
    Getter.userInfoRaw.first p.text =
      .text (if userInfoEndOf p.text p.front.length p.text.length = p.text.length then []
        else span p.text p.front.length
          (userInfoEndOf p.text p.front.length p.text.length)) := by
  rw [Getter.first_eq_located (by decide)]
  change Answer.text (if (located p.text).offset userInfoEnd = p.text.length ∨
    (located p.text).offset UriString.authorityStart = p.text.length then []
    else span p.text ((located p.text).offset UriString.authorityStart)
      ((located p.text).offset userInfoEnd)) = _
  rw [p.offset_userInfoEnd, p.offset_authorityStart]
  simp only [front_length_ne hrest, or_false]

theorem first_hasUserInfo (hrest : p.rest ≠ []) :
    Getter.hasUserInfo.first p.text =
      .flag (userInfoEndOf p.text p.front.length p.text.length != p.text.length) := by
  rw [Getter.first_eq_located (by decide)]
  change Answer.flag ((located p.text).offset userInfoEnd != p.text.length &&
    (located p.text).offset UriString.authorityStart != p.text.length) = _
  rw [p.offset_userInfoEnd, p.offset_authorityStart, bne_iff_ne.mpr (front_length_ne hrest),
    Bool.and_true]

theorem text_eq_at {text : List Char} (h : p.userInfo = some text) :
    p.text = p.lead ++ '@' :: (p.host ++ (delimited ':' p.port ++ p.tail)) := by
  rw [UriParts.text, hostPort, userDelimiter, h]
  simp

theorem lead_length_ne {text : List Char} (h : p.userInfo = some text) :
    p.lead.length ≠ p.text.length := by
  rw [text_eq_at h, List.length_append, List.length_cons]
  omega

theorem hostStart_text (huser : userInfoEndOf p.text p.front.length p.text.length =
    p.userInfoAt) : (located p.text).hostStart = (p.lead ++ p.userDelimiter).length := by
  have htext : (located p.text).data = p.text := rfl
  rw [hostStart, p.offset_userInfoEnd, huser, p.offset_authorityStart, htext]
  cases h : p.userInfo with
  | none =>
      rw [p.userInfoAt_of_none h, if_pos rfl, lead, userDelimiter, h, Option.getD_none,
        List.append_nil]
      exact congrArg List.length (List.append_nil _).symm
  | some text =>
      have hat : p.text[p.lead.length]? = some '@' := by
        rw [text_eq_at h, List.getElem?_append_right le_rfl, Nat.sub_self,
          List.getElem?_cons_zero]
      rw [p.userInfoAt_of_some h, if_neg (lead_length_ne h), if_pos hat, userDelimiter, h,
        List.length_append]
      rfl

/-- What `host_raw` reads, where the user information is right. -/
theorem first_hostRaw (hrest : p.rest ≠ [])
    (huser : userInfoEndOf p.text p.front.length p.text.length = p.userInfoAt) :
    Getter.hostRaw.first p.text = .text (
      if p.foundPort p.foundPath ≠ p.text.length then
        span p.text (p.lead ++ p.userDelimiter).length (p.foundPort p.foundPath)
      else if p.foundPath ≠ p.text.length then
        span p.text (p.lead ++ p.userDelimiter).length p.foundPath
      else if p.searchStop ≠ p.text.length then
        span p.text (p.lead ++ p.userDelimiter).length p.searchStop
      else if p.beforeFragment.length ≠ p.text.length then
        span p.text (p.lead ++ p.userDelimiter).length p.beforeFragment.length
      else if (p.lead ++ p.userDelimiter).length = p.text.length then []
      else (p.text.drop (p.lead ++ p.userDelimiter).length).take (p.text.length - 1)) := by
  rw [Getter.first_eq_located (by decide)]
  change Answer.text (if (located p.text).offset UriString.authorityStart = p.text.length then []
    else if (located p.text).offset portStart ≠ p.text.length then
      span p.text (located p.text).hostStart ((located p.text).offset portStart)
    else if (located p.text).offset authorityEnd ≠ p.text.length then
      span p.text (located p.text).hostStart ((located p.text).offset authorityEnd)
    else if (located p.text).offset queryStart ≠ p.text.length then
      span p.text (located p.text).hostStart ((located p.text).offset queryStart)
    else if (located p.text).offset fragmentStart ≠ p.text.length then
      span p.text (located p.text).hostStart ((located p.text).offset fragmentStart)
    else if (located p.text).hostStart = p.text.length then []
    else (p.text.drop (located p.text).hostStart).take (p.text.length - 1)) = _
  rw [hostStart_text huser, p.offset_authorityStart, if_neg (front_length_ne hrest),
    p.offset_portStart hrest, p.offset_authorityEnd, p.offset_queryStart,
    p.offset_fragmentStart, huser]
  rfl

theorem first_hasHost :
    Getter.hasHost.first p.text =
      match Getter.hostRaw.first p.text with
      | .text host => .flag (!host.isEmpty)
      | .flag b => .flag b := by
  rfl

theorem first_port (hrest : p.rest ≠ [])
    (huser : userInfoEndOf p.text p.front.length p.text.length = p.userInfoAt) :
    Getter.port.first p.text = .text (
      if p.foundPort p.foundPath = p.text.length then []
      else span p.text (p.foundPort p.foundPath + 1)
        (if p.foundPath = p.text.length then p.foundPath - 1 else p.foundPath)) := by
  rw [Getter.first_eq_located (by decide)]
  change Answer.text (if (located p.text).offset portStart = p.text.length then []
    else span p.text ((located p.text).offset portStart + 1)
      (if (located p.text).offset authorityEnd = p.text.length then
        (located p.text).offset authorityEnd - 1
      else (located p.text).offset authorityEnd)) = _
  rw [p.offset_portStart hrest, p.offset_authorityEnd, huser]
  rfl

theorem first_hasPort (hrest : p.rest ≠ [])
    (huser : userInfoEndOf p.text p.front.length p.text.length = p.userInfoAt) :
    Getter.hasPort.first p.text = .flag (p.foundPort p.foundPath != p.text.length) := by
  rw [Getter.first_eq_located (by decide)]
  change Answer.flag ((located p.text).offset portStart != p.text.length) = _
  rw [p.offset_portStart hrest, huser]
  rfl

theorem min_searchStop : min p.searchStop p.beforeFragment.length = p.beforeQuery.length := by
  have hle : p.beforeQuery.length ≤ p.beforeFragment.length := by
    rw [beforeFragment, List.length_append]
    exact Nat.le_add_right _ _
  cases h : p.query with
  | none =>
      have hfragment : p.beforeFragment.length ≤ p.text.length := by
        rw [p.text_eq_fragment, List.length_append]
        exact Nat.le_add_right _ _
      rw [p.searchStop_of_none h, min_eq_right hfragment, beforeFragment, h, delimited,
        List.append_nil]
  | some query => rw [p.searchStop_of_some h, min_eq_left hle]

theorem first_pathRaw :
    Getter.pathRaw.first p.text = .text (
      if p.foundPath = p.text.length then []
      else span p.text p.foundPath p.beforeQuery.length) := by
  rw [Getter.first_eq_located (by decide)]
  change Answer.text (if (located p.text).offset authorityEnd = p.text.length then []
    else span p.text ((located p.text).offset authorityEnd)
      (min ((located p.text).offset queryStart) ((located p.text).offset fragmentStart))) = _
  rw [p.offset_authorityEnd, p.offset_queryStart, p.offset_fragmentStart, min_searchStop]

theorem first_hasPath :
    Getter.hasPath.first p.text = .flag (p.foundPath != p.text.length) := by
  rw [Getter.first_eq_located (by decide)]
  change Answer.flag ((located p.text).offset authorityEnd != p.text.length) = _
  rw [p.offset_authorityEnd]

/-! ## From the offsets to the parts -/

theorem text_eq_host :
    p.text = (p.lead ++ p.userDelimiter) ++ (p.host ++ (delimited ':' p.port ++ p.tail)) := by
  rw [text, hostPort]
  simp only [List.append_assoc]

theorem hostPort_of_none (h : p.port = none) :
    p.lead ++ p.hostPort = (p.lead ++ p.userDelimiter) ++ p.host := by
  rw [hostPort, h, delimited, List.append_nil, List.append_assoc]

theorem text_eq_port (h : p.port = some port) :
    p.text = ((p.lead ++ (p.userDelimiter ++ p.host)) ++ [':']) ++ (port ++ p.tail) := by
  rw [text, hostPort, h, delimited]
  simp only [List.append_assoc, List.cons_append, List.nil_append]

theorem hostPort_of_some (h : p.port = some port) :
    p.lead ++ p.hostPort = ((p.lead ++ (p.userDelimiter ++ p.host)) ++ [':']) ++ port := by
  rw [hostPort, h, delimited]
  simp only [List.append_assoc, List.cons_append, List.nil_append]

theorem succ_portAt (h : p.port = some port) :
    p.portAt + 1 = ((p.lead ++ (p.userDelimiter ++ p.host)) ++ [':']).length := by
  rw [p.portAt_of_some h, @List.length_append _ _ [':'], List.length_singleton]

theorem portAt_ne (h : p.port = some port) : p.portAt ≠ p.text.length := by
  have hle : p.portAt + 1 ≤ p.text.length := by
    rw [succ_portAt h, text_eq_port h]
    exact (List.prefix_append _ _).length_le
  exact Nat.ne_of_lt hle

theorem pathAt_ne {path : List Char} (h : p.path = some path) : p.pathAt ≠ p.text.length := by
  have hpos := p.tail_ne_nil h
  have hlength := p.length_eq
  rw [p.pathAt_of_some h, List.length_append]
  omega

/-- What `host_raw` takes where the host ends the text. -/
theorem take_last {pre host : List Char} (hpre : 0 < pre.length) :
    (if pre.length = (pre ++ host).length then []
      else host.take ((pre ++ host).length - 1)) = host := by
  rw [List.length_append]
  split
  · rename_i h
    exact (List.length_eq_zero_iff.mp (by omega)).symm
  · exact List.take_of_length_le (by omega)

theorem length_ne_append {pre : List Char} {c : Char} {post : List Char} :
    pre.length ≠ (pre ++ c :: post).length := by
  rw [List.length_append]
  exact (Nat.lt_add_of_pos_right (Nat.succ_pos _)).ne

theorem lead_length_pos : 0 < (p.lead ++ p.userDelimiter).length := by
  have hfront := p.front_length_pos
  rw [lead, List.length_append, List.length_append]
  omega

namespace OffsetsRight

variable (h : p.OffsetsRight)

include h

theorem answers_userInfoRaw : Getter.userInfoRaw.first p.text = .text (p.userInfo.getD []) := by
  rw [first_userInfoRaw h.authority, h.userInfo]
  cases huser : p.userInfo with
  | none => rw [p.userInfoAt_of_none huser, if_pos rfl, Option.getD_none]
  | some text =>
      have htext : p.text = p.front ++ (text ++ (p.hostPort ++ p.tail)) := by
        rw [p.text_eq_rest, rest, huser, Option.getD_some]
      have hlead : p.lead.length = (p.front ++ text).length := by
        rw [lead, huser, Option.getD_some]
      rw [p.userInfoAt_of_some huser, if_neg (lead_length_ne huser), hlead, htext, span_append,
        Option.getD_some]

theorem answers_hasUserInfo : Getter.hasUserInfo.first p.text = .flag p.userInfo.isSome := by
  rw [first_hasUserInfo h.authority, h.userInfo]
  cases huser : p.userInfo with
  | none => rw [p.userInfoAt_of_none huser, bne_self_eq_false, Option.isSome_none]
  | some text =>
      rw [p.userInfoAt_of_some huser, bne_iff_ne.mpr (lead_length_ne huser), Option.isSome_some]

theorem foundPort_eq : p.foundPort p.foundPath = p.portAt := by
  rw [h.path]
  exact h.port

theorem answers_hasPort : Getter.hasPort.first p.text = .flag p.port.isSome := by
  rw [first_hasPort h.authority h.userInfo, h.foundPort_eq]
  cases hport : p.port with
  | none => rw [p.portAt_of_none hport, bne_self_eq_false, Option.isSome_none]
  | some port => rw [bne_iff_ne.mpr (portAt_ne hport), Option.isSome_some]

theorem answers_hasPath : Getter.hasPath.first p.text = .flag p.path.isSome := by
  rw [first_hasPath, h.path]
  cases hpath : p.path with
  | none => rw [p.pathAt_of_none hpath, bne_self_eq_false, Option.isSome_none]
  | some path => rw [bne_iff_ne.mpr (pathAt_ne hpath), Option.isSome_some]

theorem answers_pathRaw : Getter.pathRaw.first p.text = .text (delimited '/' p.path) := by
  rw [first_pathRaw, h.path]
  cases hpath : p.path with
  | none => rw [p.pathAt_of_none hpath, if_pos rfl, delimited]
  | some path =>
      have hend : p.beforeQuery.length =
          ((p.lead ++ p.hostPort) ++ delimited '/' (some path)).length := by
        rw [beforeQuery, hpath, List.append_assoc]
      have htext : p.text = (p.lead ++ p.hostPort) ++ (delimited '/' (some path) ++
          (delimited '?' p.query ++ delimited '#' p.fragment)) := by
        rw [text, tail, hpath]
        simp only [List.append_assoc]
      rw [if_neg (pathAt_ne hpath), p.pathAt_of_some hpath, hend, htext, span_append]

theorem tail_eq_nil (hport : p.port = some port) (hpath : p.path = none) :
    p.tail = [] := by
  have hfound := h.port
  rw [p.pathAt_of_none hpath] at hfound
  exact (p.foundPort_of_some hport hpath).mp hfound

theorem answers_port : Getter.port.first p.text = .text (p.port.getD []) := by
  rw [first_port h.authority h.userInfo, h.foundPort_eq]
  cases hport : p.port with
  | none => rw [p.portAt_of_none hport, if_pos rfl, Option.getD_none]
  | some port =>
      rw [if_neg (portAt_ne hport), h.path, Option.getD_some, succ_portAt hport]
      cases hpath : p.path with
      | none =>
          have hnil := h.complete hpath port hport
          have htail := h.tail_eq_nil hport hpath
          have hlength : p.text.length =
              ((p.lead ++ (p.userDelimiter ++ p.host)) ++ [':']).length := by
            rw [text_eq_port hport, hnil, htail, List.append_nil, List.append_nil]
          have hpos : 0 < p.text.length := by
            rw [hlength, ← succ_portAt hport]
            exact Nat.succ_pos _
          rw [p.pathAt_of_none hpath, if_pos rfl, ← hlength, span,
            if_pos (Nat.sub_one_lt_of_lt hpos), List.drop_length, hnil]
      | some path =>
          rw [if_neg (pathAt_ne hpath), p.pathAt_of_some hpath, hostPort_of_some hport,
            text_eq_port hport, span_append]

theorem answers_hostRaw : Getter.hostRaw.first p.text = .text p.host := by
  rw [first_hostRaw h.authority h.userInfo, h.foundPort_eq, h.path]
  have hspan : ∀ stop, stop = ((p.lead ++ p.userDelimiter) ++ p.host).length →
      span p.text (p.lead ++ p.userDelimiter).length stop = p.host := by
    rintro stop rfl
    rw [text_eq_host, span_append]
  cases hport : p.port with
  | some port =>
      have hat := p.portAt_of_some hport
      rw [← List.append_assoc] at hat
      rw [if_pos (portAt_ne hport), hspan _ hat]
  | none =>
      have hlead := congrArg List.length (hostPort_of_none hport)
      rw [p.portAt_of_none hport, if_neg (not_not_intro rfl)]
      cases hpath : p.path with
      | some path =>
          rw [if_pos (pathAt_ne hpath), p.pathAt_of_some hpath, hspan _ hlead]
      | none =>
          have hquery : p.beforeQuery = p.lead ++ p.hostPort := by
            rw [beforeQuery, hpath, delimited, List.append_nil]
          rw [p.pathAt_of_none hpath, if_neg (not_not_intro rfl)]
          cases hq : p.query with
          | some query =>
              rw [p.searchStop_of_some hq, if_pos (p.beforeQuery_length_lt hq).ne,
                hspan _ (hquery ▸ hlead)]
          | none =>
              have hbefore : p.beforeFragment = (p.lead ++ p.userDelimiter) ++ p.host := by
                rw [beforeFragment, hq, delimited, List.append_nil, hquery,
                  hostPort_of_none hport]
              have htext := p.text_eq_fragment
              rw [p.searchStop_of_none hq, if_neg (not_not_intro rfl), hbefore]
              rw [hbefore] at htext
              cases hf : p.fragment with
              | some fragment =>
                  have hne : ((p.lead ++ p.userDelimiter) ++ p.host).length ≠ p.text.length := by
                    rw [htext, hf]
                    exact length_ne_append
                  rw [if_pos hne, hspan _ rfl]
              | none =>
                  rw [hf, delimited, List.append_nil] at htext
                  rw [htext, if_neg (not_not_intro rfl), List.drop_left]
                  exact congrArg Answer.text (take_last lead_length_pos)

theorem returnsParts : p.ReturnsParts where
  scheme := p.first_scheme
  hasScheme := p.first_hasScheme
  userInfo := h.answers_userInfoRaw
  hasUserInfo := h.answers_hasUserInfo
  host := h.answers_hostRaw
  hasHost := by rw [first_hasHost, h.answers_hostRaw]
  port := h.answers_port
  hasPort := h.answers_hasPort
  path := h.answers_pathRaw
  hasPath := h.answers_hasPath
  queries := p.first_queriesRaw
  hasQueries := p.first_hasQueries
  fragment := p.first_fragment
  hasFragment := p.first_hasFragment

end OffsetsRight

/-! ## From the parts to the offsets -/

theorem foundPath_ne_of_nil (h : p.rest = []) : p.foundPath ≠ p.text.length := by
  have htext : p.text = p.scheme ++ [':', '/', '/'] := by
    rw [p.text_eq_rest, h, List.append_nil]
    rfl
  have hfront : p.front.length = p.text.length := by
    rw [p.text_eq_rest, h, List.append_nil]
  have hquery : p.query = none := by
    rw [rest, tail] at h
    simp only [List.append_eq_nil_iff] at h
    cases hq : p.query with
    | none => rfl
    | some query =>
        rw [hq] at h
        exact absurd h.2.2.2.1 (List.cons_ne_nil _ _)
  have hspan : span p.text p.scheme.length p.searchStop = [':', '/', '/'] := by
    rw [p.searchStop_of_none hquery, span_length p.scheme_length_lt.le, htext, List.drop_left]
  have hlength : p.text.length = p.scheme.length + 3 := by
    rw [htext, List.length_append]
    rfl
  have hurn := p.hasUrnScheme_text
  rw [hasUrnScheme] at hurn
  rw [foundPath, authorityEndOf, if_neg fun h => p.scheme_length_lt.ne h.2]
  dsimp only
  rw [if_neg (not_not_intro hfront), hspan, hurn, hlength]
  cases isUrn p.scheme with
  | false =>
      change 1 + (p.scheme.length + 0) ≠ _
      omega
  | true =>
      change 0 + (p.scheme.length + 1) ≠ _
      omega

namespace ReturnsParts

variable (h : p.ReturnsParts)

include h

theorem rest_ne_nil : p.rest ≠ [] := by
  intro hrest
  have hpath : p.path = none := by
    cases hpath : p.path with
    | none => rfl
    | some path =>
        have hpos := p.tail_ne_nil hpath
        rw [rest, List.append_eq_nil_iff, List.append_eq_nil_iff] at hrest
        rw [hrest.2.2] at hpos
        cases hpos
  have hflag := h.hasPath
  rw [first_hasPath, hpath, bne_iff_ne.mpr (foundPath_ne_of_nil hrest)] at hflag
  cases hflag

theorem userInfo_right :
    userInfoEndOf p.text p.front.length p.text.length = p.userInfoAt := by
  have hflag := h.hasUserInfo
  have htext := h.userInfo
  rw [first_hasUserInfo h.rest_ne_nil, Answer.flag.injEq] at hflag
  rw [first_userInfoRaw h.rest_ne_nil, Answer.text.injEq] at htext
  cases huser : p.userInfo with
  | none =>
      rw [huser, Option.isSome_none, bne_eq_false_iff_eq] at hflag
      rw [hflag, p.userInfoAt_of_none huser]
  | some text =>
      rw [huser, Option.isSome_some, bne_iff_ne] at hflag
      rw [huser, if_neg hflag, Option.getD_some] at htext
      have hsplit : p.text = p.front ++ (text ++ (p.hostPort ++ p.tail)) := by
        rw [p.text_eq_rest, rest, huser, Option.getD_some]
      have hne : p.hostPort ++ p.tail ≠ [] := by
        rw [hostPort, userDelimiter, huser]
        exact List.cons_ne_nil _ _
      rw [(span_eq_iff hsplit hne).mp htext, p.userInfoAt_of_some huser, lead, huser]
      rfl

theorem port_right : p.foundPort p.foundPath = p.portAt := by
  have hflag := h.hasPort
  rw [first_hasPort h.rest_ne_nil h.userInfo_right, Answer.flag.injEq] at hflag
  cases hport : p.port with
  | none =>
      rw [hport, Option.isSome_none, bne_eq_false_iff_eq] at hflag
      rw [hflag, p.portAt_of_none hport]
  | some port =>
      have hhost := h.host
      rw [hport, Option.isSome_some, bne_iff_ne] at hflag
      rw [first_hostRaw h.rest_ne_nil h.userInfo_right, if_pos hflag, Answer.text.injEq] at hhost
      have hne : delimited ':' p.port ++ p.tail ≠ [] := by
        rw [hport]
        exact List.cons_ne_nil _ _
      rw [(span_eq_iff text_eq_host hne).mp hhost, p.portAt_of_some hport, List.append_assoc]

theorem path_right : p.foundPath = p.pathAt := by
  have hflag := h.hasPath
  rw [first_hasPath, Answer.flag.injEq] at hflag
  cases hpath : p.path with
  | none =>
      rw [hpath, Option.isSome_none, bne_eq_false_iff_eq] at hflag
      rw [hflag, p.pathAt_of_none hpath]
  | some path =>
      rw [hpath, Option.isSome_some, bne_iff_ne] at hflag
      have htail : p.tail ≠ [] := List.length_pos_iff.mp (p.tail_ne_nil hpath)
      rw [p.pathAt_of_some hpath]
      cases hport : p.port with
      | none =>
          have hhost := h.host
          rw [first_hostRaw h.rest_ne_nil h.userInfo_right, h.port_right,
            p.portAt_of_none hport, if_neg (not_not_intro rfl), if_pos hflag,
            Answer.text.injEq] at hhost
          have hsplit := p.text_eq_host
          rw [hport, delimited, List.nil_append] at hsplit
          rw [(span_eq_iff hsplit htail).mp hhost, hostPort_of_none hport]
      | some port =>
          have hread := h.port
          rw [first_port h.rest_ne_nil h.userInfo_right, h.port_right, if_neg (portAt_ne hport),
            if_neg hflag, hport, Option.getD_some, Answer.text.injEq, succ_portAt hport] at hread
          rw [(span_eq_iff (text_eq_port hport) htail).mp hread, hostPort_of_some hport]

theorem complete (hpath : p.path = none) : ∀ port ∈ p.port, port = [] := by
  intro port hport
  have hread := h.port
  have hfound := h.port_right
  rw [h.path_right, p.pathAt_of_none hpath] at hfound
  have htail := (p.foundPort_of_some hport hpath).mp hfound
  have htext := text_eq_port hport
  rw [htail, List.append_nil] at htext
  have hlength : p.text.length = p.portAt + 1 + port.length := by
    rw [succ_portAt hport, ← List.length_append, ← htext]
  rw [first_port h.rest_ne_nil h.userInfo_right, h.path_right, p.pathAt_of_none hpath, hfound,
    if_neg (portAt_ne hport), if_pos rfl, hport, Option.getD_some, Answer.text.injEq] at hread
  -- the last character of the port is missing
  have hread := congrArg List.length hread
  rw [span] at hread
  split at hread
  · rw [List.length_drop] at hread
    exact List.length_eq_zero_iff.mp (by omega)
  · rw [List.length_take, List.length_drop] at hread
    exact List.length_eq_zero_iff.mp (by omega)

theorem offsetsRight : p.OffsetsRight where
  authority := h.rest_ne_nil
  userInfo := h.userInfo_right
  path := h.path_right
  port := h.path_right ▸ h.port_right
  complete := h.complete

end ReturnsParts

end Authority

/-! ## Main result -/

/-- The getters return the parts if and only if the parts can be told apart in the text. -/
theorem returnsParts_iff : p.ReturnsParts ↔ p.Readable := by
  rw [← p.offsetsRight_iff]
  constructor
  · exact fun h => h.offsetsRight
  · exact fun h => h.returnsParts

/-- The URI `http://h:80`. -/
def withPort : UriParts where
  scheme := "http".toList
  userInfo := none
  host := ['h']
  port := some ['8', '0']
  path := none
  query := none
  fragment := none
  scheme_valid := by decide
  userInfo_valid := by simp
  host_valid := .inl (by decide)
  port_valid := by
    rintro text ⟨⟩
    decide
  path_valid := by simp
  query_valid := by simp
  fragment_valid := by simp

/-- The port of `http://h:80` is returned without its last digit. -/
theorem not_returnsParts_port : ¬ ∀ p : UriParts, p.ReturnsParts := by
  intro h
  have hport := (h withPort).port
  revert hport
  decide

end UriParts

end Webpp.Uri
