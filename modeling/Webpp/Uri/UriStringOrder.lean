import Webpp.Foundation.Run
import Webpp.Uri.UserInfoEnd

/-!
# The order of calls

The getters of `uri_string` look for their components in any order and keep what they find.
`located` holds the offsets that are found on a text that nothing is known of, and a consistent
state holds some of them. Only the user information is looked for in front of the offsets that
happen to be known, and only `has_username` looks for nothing.
-/

namespace Webpp.Uri

open Text (span findFirstOf)

namespace UriString

variable {u : UriString} {field : UriString → Option ℕ} {g : Getter}

/-! ## Consistent states -/

/-- The offsets that are found on a text that nothing is known of. -/
def located (data : List Char) : UriString :=
  let scheme := schemeOf data
  let fragmentStart := fragmentStartOf data
  let queryStart := queryStartOf data fragmentStart
  let userInfoEnd := userInfoEndOf data scheme.authorityStart data.length
  let authorityEnd := authorityEndOf data scheme.schemeEnd scheme.authorityStart queryStart
  let port :=
    if scheme.authorityStart = data.length then (data.length, false)
    else portStartOf data scheme.authorityStart userInfoEnd authorityEnd
  { data
    schemeEnd := some scheme.schemeEnd
    authorityStart := some scheme.authorityStart
    userInfoEnd := some userInfoEnd
    portStart := some port.1
    authorityEnd := some authorityEnd
    queryStart := some queryStart
    fragmentStart := some fragmentStart
    errorsScheme := scheme.error
    errorsPort := port.2 }

/-- An offset is not known, or it is the one that is found on the text. -/
def Known (data : List Char) (u : UriString) (field : UriString → Option ℕ) : Prop :=
  field u = field (located data)

/-- What is known of a text is right, and so is what it was found with. -/
structure Consistent (data : List Char) (u : UriString) : Prop where
  text : u.data = data
  scheme : u.schemeEnd = none ∧ u.errorsScheme = false ∨
    Known data u schemeEnd ∧ Known data u authorityStart ∧
      u.errorsScheme = (located data).errorsScheme
  userInfo : u.userInfoEnd = none ∨ Known data u userInfoEnd ∧ Known data u schemeEnd
  fragment : u.fragmentStart = none ∨ Known data u fragmentStart
  query : u.queryStart = none ∨ Known data u queryStart ∧ Known data u fragmentStart
  path : u.authorityEnd = none ∨
    Known data u authorityEnd ∧ Known data u schemeEnd ∧ Known data u queryStart
  port : u.portStart = none ∧ u.errorsPort = false ∨
    Known data u portStart ∧ u.errorsPort = (located data).errorsPort ∧
      Known data u userInfoEnd ∧
      ((schemeOf data).authorityStart ≠ data.length → Known data u authorityEnd)

theorem consistent_init (data : List Char) : Consistent data { data := data } where
  text := rfl
  scheme := .inl ⟨rfl, rfl⟩
  userInfo := .inl rfl
  fragment := .inl rfl
  query := .inl rfl
  path := .inl rfl
  port := .inl ⟨rfl, rfl⟩

section Parse

variable {data : List Char} {u : UriString}

theorem Known.isSome {e : ℕ} (h : Known data u field)
    (he : field (located data) = some e) : (field u).isSome = true := by
  rw [h, he]
  rfl

theorem Known.ne_none {e : ℕ} (h : Known data u field)
    (he : field (located data) = some e) : field u ≠ none := by
  rw [h, he]
  exact Option.some_ne_none e

theorem Known.offset_eq (h : Known data u field)
    (htext : u.data = data) : u.offset field = (located data).offset field := by
  rw [offset, h, htext]
  rfl

/-! ## Keeping what is found -/

def keepScheme (data : List Char) (u : UriString) : UriString :=
  { u with
    schemeEnd := (located data).schemeEnd
    authorityStart := (located data).authorityStart
    errorsScheme := (located data).errorsScheme }

def keepUserInfo (data : List Char) (u : UriString) : UriString :=
  { u with userInfoEnd := (located data).userInfoEnd }

def keepFragment (data : List Char) (u : UriString) : UriString :=
  { u with fragmentStart := (located data).fragmentStart }

def keepQuery (data : List Char) (u : UriString) : UriString :=
  { u with queryStart := (located data).queryStart }

def keepPath (data : List Char) (u : UriString) : UriString :=
  { u with authorityEnd := (located data).authorityEnd }

def keepPort (data : List Char) (u : UriString) : UriString :=
  { u with portStart := (located data).portStart, errorsPort := (located data).errorsPort }

namespace Consistent

theorem keepScheme (h : Consistent data u) : Consistent data (u.keepScheme data) where
  text := h.text
  scheme := .inr ⟨rfl, rfl, rfl⟩
  userInfo := h.userInfo.imp_right fun hu => ⟨hu.1, rfl⟩
  fragment := h.fragment
  query := h.query
  path := h.path.imp_right fun hp => ⟨hp.1, rfl, hp.2.2⟩
  port := h.port

theorem keepUserInfo (h : Consistent data u) (hscheme : Known data u schemeEnd) :
    Consistent data (u.keepUserInfo data) where
  text := h.text
  scheme := h.scheme
  userInfo := .inr ⟨rfl, hscheme⟩
  fragment := h.fragment
  query := h.query
  path := h.path
  port := h.port.imp_right fun hp => ⟨hp.1, hp.2.1, rfl, hp.2.2.2⟩

theorem keepFragment (h : Consistent data u) : Consistent data (u.keepFragment data) where
  text := h.text
  scheme := h.scheme
  userInfo := h.userInfo
  fragment := .inr rfl
  query := h.query.imp_right fun hq => ⟨hq.1, rfl⟩
  path := h.path
  port := h.port

theorem keepQuery (h : Consistent data u) (hfragment : Known data u fragmentStart) :
    Consistent data (u.keepQuery data) where
  text := h.text
  scheme := h.scheme
  userInfo := h.userInfo
  fragment := h.fragment
  query := .inr ⟨rfl, hfragment⟩
  path := h.path.imp_right fun hp => ⟨hp.1, hp.2.1, rfl⟩
  port := h.port

theorem keepPath (h : Consistent data u) (hscheme : Known data u schemeEnd)
    (hquery : Known data u queryStart) : Consistent data (u.keepPath data) where
  text := h.text
  scheme := h.scheme
  userInfo := h.userInfo
  fragment := h.fragment
  query := h.query
  path := .inr ⟨rfl, hscheme, hquery⟩
  port := h.port.imp_right fun hp => ⟨hp.1, hp.2.1, hp.2.2.1, fun _ => rfl⟩

theorem keepPort (h : Consistent data u) (huser : Known data u userInfoEnd)
    (hpath : (schemeOf data).authorityStart ≠ data.length → Known data u authorityEnd) :
    Consistent data (u.keepPort data) where
  text := h.text
  scheme := h.scheme
  userInfo := h.userInfo
  fragment := h.fragment
  query := h.query
  path := h.path
  port := .inr ⟨rfl, rfl, huser, hpath⟩

/-! What an offset that is known was found with is known too. -/

theorem known_authorityStart (h : Consistent data u) (hk : Known data u schemeEnd) :
    Known data u authorityStart ∧ u.errorsScheme = (located data).errorsScheme :=
  (h.scheme.resolve_left fun hn => hk.ne_none rfl hn.1).2

theorem known_schemeEnd (h : Consistent data u) (hk : Known data u userInfoEnd) :
    Known data u schemeEnd :=
  (h.userInfo.resolve_left (hk.ne_none rfl)).2

theorem known_fragmentStart (h : Consistent data u) (hk : Known data u queryStart) :
    Known data u fragmentStart :=
  (h.query.resolve_left (hk.ne_none rfl)).2

theorem known_of_authorityEnd (h : Consistent data u) (hk : Known data u authorityEnd) :
    Known data u schemeEnd ∧ Known data u queryStart :=
  (h.path.resolve_left (hk.ne_none rfl)).2

theorem known_of_portStart (h : Consistent data u) (hk : Known data u portStart) :
    u.errorsPort = (located data).errorsPort ∧ Known data u userInfoEnd ∧
      ((schemeOf data).authorityStart ≠ data.length → Known data u authorityEnd) :=
  (h.port.resolve_left fun hn => hk.ne_none rfl hn.1).2

end Consistent

/-! ## The steps of the parser -/

theorem keepScheme_of_known (h : Consistent data u) (hscheme : Known data u schemeEnd) :
    u.keepScheme data = u := by
  obtain ⟨hstart, herror⟩ := h.known_authorityStart hscheme
  rw [keepScheme, ← hscheme, ← hstart, ← herror]

theorem parseScheme_eq (h : Consistent data u) : u.parseScheme = u.keepScheme data := by
  obtain ⟨hnone, herror⟩ | hknown := h.scheme
  · obtain rfl := h.text
    rw [parseScheme, hnone, Option.isSome_none, if_neg Bool.false_ne_true, herror]
    rfl
  · rw [keepScheme_of_known h hknown.1, parseScheme, if_pos (hknown.1.isSome rfl)]

theorem parseFragment_eq (h : Consistent data u) : u.parseFragment = u.keepFragment data := by
  obtain hnone | hknown := h.fragment
  · obtain rfl := h.text
    rw [parseFragment, hnone, Option.isSome_none, if_neg Bool.false_ne_true]
    rfl
  · rw [parseFragment, if_pos (hknown.isSome rfl), keepFragment, ← hknown]

theorem parseQuery_eq (h : Consistent data u) :
    u.parseQuery = (u.keepFragment data).keepQuery data := by
  obtain hnone | ⟨hquery, hfragment⟩ := h.query
  · obtain rfl := h.text
    rw [parseQuery, hnone, Option.isSome_none, if_neg Bool.false_ne_true, parseFragment_eq h]
    rfl
  · rw [parseQuery, if_pos (hquery.isSome rfl), keepFragment, ← hfragment, keepQuery, ← hquery]

theorem parsePath_eq (h : Consistent data u) :
    u.parsePath =
      (((u.keepScheme data).keepFragment data).keepQuery data).keepPath data := by
  obtain hnone | ⟨hpath, hscheme, hquery⟩ := h.path
  · obtain rfl := h.text
    rw [parsePath, hnone, Option.isSome_none, if_neg Bool.false_ne_true, parseScheme_eq h,
      parseQuery_eq h.keepScheme]
    rfl
  · rw [parsePath, if_pos (hpath.isSome rfl), keepScheme_of_known h hscheme, keepFragment,
      ← h.known_fragmentStart hquery, keepQuery, ← hquery, keepPath, ← hpath]

/-- The state is consistent, and the user information has been found or will be. -/
def Ready (data : List Char) (u : UriString) : Prop :=
  Consistent data u ∧
    (u.userInfoEnd = none → SeparatorBefore data (schemeOf data).authorityStart u.nextSection)

/-- The state is consistent, and the offset is known. -/
def Knows (data : List Char) (field : UriString → Option ℕ) (u : UriString) : Prop :=
  Consistent data u ∧ Known data u field

theorem ready_of_knows (h : Knows data userInfoEnd u) : Ready data u :=
  ⟨h.1, fun hn => absurd hn (h.2.ne_none rfl)⟩

theorem two_le_length {text : List Char} {c d : Char} (h : text.take 2 = [c, d]) :
    2 ≤ text.length := by
  have hlength := congrArg List.length h
  rw [List.length_take] at hlength
  exact min_eq_left_iff.mp hlength

theorem schemeOf_authorityStart_le (data : List Char) :
    (schemeOf data).authorityStart ≤ data.length := by
  rw [schemeOf]
  split
  · rename_i h
    exact two_le_length h
  · split
    · exact le_rfl
    · dsimp only
      split
      · split
        · rename_i h
          have hlength := two_le_length h
          rw [List.length_drop] at hlength
          dsimp only
          omega
        · exact le_rfl
      · exact le_rfl

theorem parseUserInfo_eq (h : Ready data u) :
    u.parseUserInfo = (u.keepScheme data).keepUserInfo data := by
  obtain ⟨hcons, hbefore⟩ := h
  obtain hnone | ⟨hknown, hscheme⟩ := hcons.userInfo
  · obtain rfl := hcons.text
    have hfound := userInfoEndOf_of_before (schemeOf_authorityStart_le u.data) (hbefore hnone)
    rw [parseUserInfo, hnone, Option.isSome_none, if_neg Bool.false_ne_true,
      parseScheme_eq hcons]
    change { keepScheme u.data u with userInfoEnd := some (userInfoEndOf u.data
      (schemeOf u.data).authorityStart u.nextSection) } = _
    rw [hfound]
    rfl
  · rw [parseUserInfo, if_pos (hknown.isSome rfl), keepScheme_of_known hcons hscheme,
      keepUserInfo, ← hknown]

theorem knows_parseUserInfo (h : Ready data u) : Knows data userInfoEnd u.parseUserInfo := by
  rw [parseUserInfo_eq h]
  exact ⟨h.1.keepScheme.keepUserInfo rfl, rfl⟩

theorem knows_parseScheme (h : Consistent data u) : Knows data schemeEnd u.parseScheme := by
  rw [parseScheme_eq h]
  exact ⟨h.keepScheme, rfl⟩

theorem knows_parseFragment (h : Consistent data u) :
    Knows data fragmentStart u.parseFragment := by
  rw [parseFragment_eq h]
  exact ⟨h.keepFragment, rfl⟩

theorem knows_parseQuery (h : Consistent data u) : Knows data queryStart u.parseQuery := by
  rw [parseQuery_eq h]
  exact ⟨h.keepFragment.keepQuery rfl, rfl⟩

theorem knows_parsePath (h : Consistent data u) : Knows data authorityEnd u.parsePath := by
  rw [parsePath_eq h]
  exact ⟨(h.keepScheme.keepFragment.keepQuery rfl).keepPath rfl rfl, rfl⟩

theorem located_port_of_eq (h : (schemeOf data).authorityStart = data.length) :
    (located data).portStart = some data.length ∧ (located data).errorsPort = false := by
  dsimp only [located]
  rw [if_pos h]
  exact ⟨rfl, rfl⟩

theorem located_port_of_ne (h : (schemeOf data).authorityStart ≠ data.length) :
    let found := portStartOf data ((located data).offset authorityStart)
      ((located data).offset userInfoEnd) ((located data).offset authorityEnd)
    (located data).portStart = some found.1 ∧ (located data).errorsPort = found.2 := by
  dsimp only [located]
  rw [if_neg h]
  exact ⟨rfl, rfl⟩

theorem parsePort_of_eq (h : Ready data u) (hnone : u.portStart = none)
    (herror : u.errorsPort = false) (hstart : (schemeOf data).authorityStart = data.length) :
    u.parsePort = ((u.keepScheme data).keepUserInfo data).keepPort data := by
  obtain rfl := h.1.text
  obtain ⟨hport, hfalse⟩ := located_port_of_eq hstart
  rw [parsePort, hnone, Option.isSome_none, if_neg Bool.false_ne_true, parseUserInfo_eq h,
    keepPort, hport, hfalse, ← herror]
  exact if_pos (congrArg some hstart)

theorem parsePort_of_ne (h : Ready data u) (hnone : u.portStart = none)
    (herror : u.errorsPort = false) (hstart : (schemeOf data).authorityStart ≠ data.length) :
    u.parsePort = ((u.keepScheme data).keepUserInfo data).parsePath.keepPort data := by
  obtain rfl := h.1.text
  obtain ⟨hport, hfound⟩ := located_port_of_ne hstart
  have huser := h.1.keepScheme.keepUserInfo rfl
  rw [parsePort, hnone, Option.isSome_none, if_neg Bool.false_ne_true, parseUserInfo_eq h,
    keepPort, hport, hfound]
  refine (if_neg fun heq => hstart (Option.some.inj heq)).trans ?_
  rw [parsePath_eq huser]
  dsimp only [keepPath, keepQuery, keepFragment, keepUserInfo, keepScheme]
  rw [herror]
  rfl

theorem knows_parsePort (h : Ready data u) : Knows data portStart u.parsePort := by
  have huser := h.1.keepScheme.keepUserInfo rfl
  obtain ⟨hnone, herror⟩ | hknown := h.1.port
  · by_cases hstart : (schemeOf data).authorityStart = data.length
    · rw [parsePort_of_eq h hnone herror hstart]
      exact ⟨huser.keepPort rfl (absurd hstart), rfl⟩
    · rw [parsePort_of_ne h hnone herror hstart]
      have hpath := knows_parsePath huser
      have hkept : Known data ((u.keepScheme data).keepUserInfo data).parsePath userInfoEnd := by
        rw [parsePath_eq huser]
        rfl
      exact ⟨hpath.1.keepPort hkept fun _ => hpath.2, rfl⟩
  · rw [parsePort, if_pos (hknown.1.isSome rfl)]
    exact ⟨h.1, hknown.1⟩

/-- Everything that the host is read from is known. -/
def KnowsHost (data : List Char) (u : UriString) : Prop :=
  Knows data portStart u ∧ Known data u authorityEnd

theorem knowsHost_parseHost (h : Ready data u) : KnowsHost data u.parseHost := by
  have hport := knows_parsePort (ready_of_knows (knows_parseUserInfo h))
  have hpath := knows_parsePath hport.1
  rw [parseHost]
  refine ⟨⟨hpath.1, ?_⟩, hpath.2⟩
  rw [parsePath_eq hport.1]
  exact hport.2

end Parse

/-! ## The getters -/

section Getters

variable {data : List Char}

theorem settled_after (data : List Char) {α : Type} {P Q : UriString → Prop}
    {parse : UriString → UriString} {read : UriString → α} (hparse : ∀ u, P u → Q (parse u))
    (hread : ∀ u, Q u → read u = read (located data)) : Settled P (after parse read) Q :=
  ⟨fun _ _ hs hs' => (hread _ (hparse _ hs)).trans (hread _ (hparse _ hs')).symm, hparse⟩

theorem settled_scheme : Settled (Consistent data) scheme (Knows data schemeEnd) := by
  refine settled_after data (fun u => knows_parseScheme) fun u h => ?_
  rw [h.2.offset_eq h.1.text, h.1.text]
  rfl

theorem settled_hasScheme : Settled (Consistent data) hasScheme (Knows data schemeEnd) := by
  refine settled_after data (fun u => knows_parseScheme) fun u h => ?_
  rw [h.2.offset_eq h.1.text, h.1.text]
  rfl

theorem offset_of_knows_userInfoEnd (h : Knows data userInfoEnd u) :
    u.offset userInfoEnd = (located data).offset userInfoEnd ∧
      u.offset authorityStart = (located data).offset authorityStart :=
  ⟨h.2.offset_eq h.1.text,
    (h.1.known_authorityStart (h.1.known_schemeEnd h.2)).1.offset_eq h.1.text⟩

theorem settled_userInfoRaw : Settled (Ready data) userInfoRaw (Knows data userInfoEnd) := by
  refine settled_after data (fun u => knows_parseUserInfo) fun u h => ?_
  obtain ⟨hend, hstart⟩ := offset_of_knows_userInfoEnd h
  rw [hend, hstart, h.1.text]
  rfl

theorem settled_hasUserInfo : Settled (Ready data) hasUserInfo (Knows data userInfoEnd) := by
  refine settled_after data (fun u => knows_parseUserInfo) fun u h => ?_
  obtain ⟨hend, hstart⟩ := offset_of_knows_userInfoEnd h
  rw [hend, hstart, h.1.text]
  rfl

theorem settled_usernameRaw : Settled (Ready data) usernameRaw (Knows data userInfoEnd) := by
  refine settled_userInfoRaw.bind fun userInfo => ?_
  cases findFirstOf [':'] userInfo with
  | none => exact .pure userInfo
  | some colon => exact .pure (userInfo.take colon)

theorem settled_passwordRaw : Settled (Ready data) passwordRaw (Knows data userInfoEnd) := by
  refine settled_userInfoRaw.bind fun userInfo => ?_
  cases findFirstOf [':'] userInfo with
  | none => exact .pure []
  | some found => exact .pure (userInfo.drop (found + 1))

theorem settled_hasPassword : Settled (Ready data) hasPassword (Knows data userInfoEnd) :=
  settled_userInfoRaw.bind fun _ => .pure _

theorem settled_hostRaw : Settled (Ready data) hostRaw (KnowsHost data) := by
  refine settled_after data (fun u => knowsHost_parseHost) fun u h => ?_
  obtain ⟨⟨hcons, hport⟩, hpath⟩ := h
  obtain ⟨-, huser, -⟩ := hcons.known_of_portStart hport
  obtain ⟨hend, hstart⟩ := offset_of_knows_userInfoEnd ⟨hcons, huser⟩
  have hquery := (hcons.known_of_authorityEnd hpath).2
  have hhost : u.hostStart = (located data).hostStart := by
    rw [hostStart, hend, hstart, hcons.text, hostStart]
    rfl
  rw [hport.offset_eq hcons.text, hpath.offset_eq hcons.text, hquery.offset_eq hcons.text,
    (hcons.known_fragmentStart hquery).offset_eq hcons.text, hstart, hhost, hcons.text]
  rfl

theorem ready_of_knowsHost (h : KnowsHost data u) : Ready data u :=
  ready_of_knows ⟨h.1.1, (h.1.1.known_of_portStart h.1.2).2.1⟩

theorem settled_hasHost : Settled (Ready data) hasHost (KnowsHost data) :=
  settled_hostRaw.bind fun _ => .pure _

theorem settled_isIp : Settled (Ready data) isIp (KnowsHost data) :=
  settled_hostRaw.bind fun _ => .pure _

theorem settled_ofDomain (part : List Char → List Char) :
    Settled (Ready data) (ofDomain part) (Ready data) := by
  refine settled_hostRaw.bind fun host => ?_
  refine .ite ((Settled.pure _).strengthen fun u => ready_of_knowsHost) ?_
  refine (settled_isIp.weaken fun u => ready_of_knowsHost).bind fun ip => ?_
  exact .ite ((Settled.pure _).strengthen fun u => ready_of_knowsHost)
    ((Settled.pure _).strengthen fun u => ready_of_knowsHost)

theorem settled_port : Settled (Ready data) port (Knows data portStart) := by
  refine settled_after data (fun u => knows_parsePort) fun u h => ?_
  rw [h.2.offset_eq h.1.text, h.1.text]
  by_cases hstart : (schemeOf data).authorityStart = data.length
  · have hport : (located data).offset portStart = data.length := by
      rw [offset, (located_port_of_eq hstart).1]
      rfl
    rw [if_pos hport]
    exact (if_pos hport).symm
  · rw [((h.1.known_of_portStart h.2).2.2 hstart).offset_eq h.1.text]
    rfl

theorem settled_hasPort : Settled (Ready data) hasPort (Knows data portStart) := by
  refine settled_after data (fun u => knows_parsePort) fun u h => ?_
  rw [h.2.offset_eq h.1.text, h.1.text]
  rfl

theorem ready_of_knowsPort (h : Knows data portStart u) : Ready data u :=
  ready_of_knows ⟨h.1, (h.1.known_of_portStart h.2).2.1⟩

theorem settled_defaultPort : Settled (Consistent data) defaultPort (Knows data schemeEnd) := by
  refine settled_scheme.bind fun scheme => ?_
  exact .ite (.pure _) (.ite (.pure _) (.ite (.pure _) (.ite (.pure _) (.ite (.pure _)
    (.ite (.pure _) (.pure _))))))

theorem settled_portUint16 : Settled (Ready data) portUint16 (Consistent data) := by
  refine settled_hasPort.bind fun has => ?_
  refine .ite ?_ ?_
  · exact (settled_port.weaken fun u => ready_of_knowsPort).bind fun port =>
      (Settled.pure _).strengthen fun u h => h.1
  · exact (settled_defaultPort.weaken fun u h => h.1).strengthen fun u h => h.1

theorem settled_hasPath : Settled (Consistent data) hasPath (Knows data authorityEnd) := by
  refine settled_after data (fun u => knows_parsePath) fun u h => ?_
  rw [h.2.offset_eq h.1.text, h.1.text]
  rfl

theorem settled_pathRaw : Settled (Consistent data) pathRaw (Knows data authorityEnd) := by
  refine settled_after data (fun u => knows_parsePath) fun u h => ?_
  have hquery := (h.1.known_of_authorityEnd h.2).2
  rw [h.2.offset_eq h.1.text, hquery.offset_eq h.1.text,
    (h.1.known_fragmentStart hquery).offset_eq h.1.text, h.1.text]
  rfl

theorem settled_hasQueries : Settled (Consistent data) hasQueries (Knows data queryStart) := by
  refine settled_after data (fun u => knows_parseQuery) fun u h => ?_
  rw [h.2.offset_eq h.1.text, h.1.text]
  rfl

theorem settled_queriesRaw : Settled (Consistent data) queriesRaw (Knows data queryStart) := by
  refine settled_after data (fun u => knows_parseQuery) fun u h => ?_
  rw [h.2.offset_eq h.1.text, (h.1.known_fragmentStart h.2).offset_eq h.1.text, h.1.text]
  rfl

theorem settled_hasFragment :
    Settled (Consistent data) hasFragment (Knows data fragmentStart) := by
  refine settled_after data (fun u => knows_parseFragment) fun u h => ?_
  rw [h.2.offset_eq h.1.text, h.1.text]
  rfl

theorem settled_fragment : Settled (Consistent data) fragment (Knows data fragmentStart) := by
  refine settled_after data (fun u => knows_parseFragment) fun u h => ?_
  rw [h.2.offset_eq h.1.text, h.1.text]
  rfl

theorem settled_hasAuthority : Settled (Ready data) hasAuthority (Ready data) := by
  refine settled_hasHost.bind fun host => ?_
  refine .ite ((Settled.pure _).strengthen fun u => ready_of_knowsHost) ?_
  refine (settled_hasUserInfo.weaken fun u => ready_of_knowsHost).bind fun userInfo => ?_
  exact .ite ((Settled.pure _).strengthen fun u => ready_of_knows)
    ((settled_hasPort.weaken fun u => ready_of_knows).strengthen fun u => ready_of_knowsPort)

theorem settled_hasValidScheme :
    Settled (Consistent data) hasValidScheme (Knows data schemeEnd) := by
  refine settled_scheme.bind fun scheme => .read fun u u' h h' => ?_
  rw [(h.1.known_authorityStart h.2).2, (h'.1.known_authorityStart h'.2).2]

theorem settled_hasValid {P Q : UriString → Prop} {getter : StateM UriString (List Char)}
    (h : Settled P getter Q) : Settled P (hasValid getter) Q :=
  h.bind fun _ => .pure _

theorem settled_hasValidPort : Settled (Ready data) hasValidPort (Consistent data) := by
  refine settled_port.bind fun port => .ite ((Settled.pure true).strengthen fun u h => h.1) ?_
  -- the error is read from a state that has looked for the port
  have hrest : Settled (Knows data portStart)
      (if (located data).errorsPort then return false else return (← portUint16) != 0)
      (Consistent data) :=
    .ite ((Settled.pure false).strengthen fun u h => h.1)
      ((settled_portUint16.weaken fun u => ready_of_knowsPort).bind fun _ => .pure _)
  refine hrest.congr fun u h => ?_
  rw [← (h.1.known_of_portStart h.2).1]
  rfl

end Getters

/-! ## Runs -/

namespace Getter

/-- The getters that look for the user information. -/
def readsUserInfo : Getter → Bool
  | scheme | pathRaw | queriesRaw | fragment | hasScheme | hasUsername | hasPath | hasQueries
  | hasFragment | hasValidScheme | hasValidPath | hasValidQueries | hasValidFragment => false
  | _ => true

/-- The call finds what a first call finds: the user information is not cut off by an offset
that is known, and `has_username` does not come behind a search that has found none. -/
def Allowed (u : UriString) (g : Getter) : Prop :=
  (g.readsUserInfo = true → u.userInfoEnd = none →
    SeparatorBefore u.data (schemeOf u.data).authorityStart u.nextSection) ∧
  (g = hasUsername → u.userInfoEnd ≠ some u.data.length)

variable {data : List Char}

theorem settled_call (hreads : g.readsUserInfo = true) :
    Settled (Ready data) g.call (Consistent data) := by
  cases g with
  | userInfoRaw => exact (settled_userInfoRaw.map _).strengthen fun u h => h.1
  | usernameRaw => exact (settled_usernameRaw.map _).strengthen fun u h => h.1
  | passwordRaw => exact (settled_passwordRaw.map _).strengthen fun u h => h.1
  | hostRaw => exact (settled_hostRaw.map _).strengthen fun u h => h.1.1
  | port => exact (settled_port.map _).strengthen fun u h => h.1
  | hasUserInfo => exact (settled_hasUserInfo.map _).strengthen fun u h => h.1
  | hasPassword => exact (settled_hasPassword.map _).strengthen fun u h => h.1
  | hasHost => exact (settled_hasHost.map _).strengthen fun u h => h.1.1
  | hasTopLevelDomain =>
      exact (((settled_ofDomain _).bind fun _ => .pure _).map _).strengthen fun u h => h.1
  | hasSecondLevelDomain =>
      exact (((settled_ofDomain _).bind fun _ => .pure _).map _).strengthen fun u h => h.1
  | hasSubdomains =>
      exact (((settled_ofDomain _).bind fun _ => .pure _).map _).strengthen fun u h => h.1
  | hasPort => exact (settled_hasPort.map _).strengthen fun u h => h.1
  | hasAuthority => exact (settled_hasAuthority.map _).strengthen fun u h => h.1
  | hasValidHost => exact ((settled_hasValid settled_hostRaw).map _).strengthen fun u h => h.1.1
  | hasValidPort => exact settled_hasValidPort.map _
  | hasValidUserInfo =>
      exact ((settled_hasValid settled_userInfoRaw).map _).strengthen fun u h => h.1
  | scheme | pathRaw | queriesRaw | fragment | hasScheme | hasUsername | hasPath | hasQueries
  | hasFragment | hasValidScheme | hasValidPath | hasValidQueries | hasValidFragment =>
      cases hreads

theorem settled_call_of_not (hreads : g.readsUserInfo = false)
    (hname : g ≠ hasUsername) : Settled (Consistent data) g.call (Consistent data) := by
  cases g with
  | scheme => exact (settled_scheme.map _).strengthen fun u h => h.1
  | pathRaw => exact (settled_pathRaw.map _).strengthen fun u h => h.1
  | queriesRaw => exact (settled_queriesRaw.map _).strengthen fun u h => h.1
  | fragment => exact (settled_fragment.map _).strengthen fun u h => h.1
  | hasScheme => exact (settled_hasScheme.map _).strengthen fun u h => h.1
  | hasUsername => exact absurd rfl hname
  | hasPath => exact (settled_hasPath.map _).strengthen fun u h => h.1
  | hasQueries => exact (settled_hasQueries.map _).strengthen fun u h => h.1
  | hasFragment => exact (settled_hasFragment.map _).strengthen fun u h => h.1
  | hasValidScheme => exact (settled_hasValidScheme.map _).strengthen fun u h => h.1
  | hasValidPath => exact ((settled_hasValid settled_pathRaw).map _).strengthen fun u h => h.1
  | hasValidQueries =>
      exact ((settled_hasValid settled_queriesRaw).map _).strengthen fun u h => h.1
  | hasValidFragment =>
      exact ((settled_hasValid settled_fragment).map _).strengthen fun u h => h.1
  | userInfoRaw | usernameRaw | passwordRaw | hostRaw | port | hasUserInfo | hasPassword
  | hasHost | hasTopLevelDomain | hasSecondLevelDomain | hasSubdomains | hasPort | hasAuthority
  | hasValidHost | hasValidPort | hasValidUserInfo => cases hreads

/-- The call answers what the first call of the getter on the text answers. -/
def AnswersFirst (data : List Char) (u : UriString) (g : Getter) : Prop :=
  (g.call u).1 = g.first data

theorem nextSection_init (data : List Char) :
    nextSection { data := data } = data.length := by
  simp [nextSection, offset]

theorem ready_init (data : List Char) : Ready data { data := data } := by
  refine ⟨consistent_init data, fun _ d hd => .inr ?_⟩
  have hlength := lt_of_separatorOf hd
  rw [List.length_drop] at hlength
  rw [nextSection_init]
  exact Nat.add_lt_of_lt_sub' hlength

theorem consistent_step (h : Consistent data u)
    (hallowed : Allowed u g) : Consistent data (g.step u) ∧ AnswersFirst data u g := by
  by_cases hname : g = hasUsername
  · subst hname
    refine ⟨h, congrArg Answer.flag ?_⟩
    have hne := hallowed.2 rfl
    rw [h.text] at hne
    change (u.userInfoEnd != some u.data.length) = true
    rw [h.text]
    exact bne_iff_ne.mpr hne
  · cases hreads : g.readsUserInfo with
    | true =>
        have hready : Ready data u := ⟨h, h.text ▸ hallowed.1 hreads⟩
        have hcall : Settled (Ready data) g.call (Consistent data) := settled_call hreads
        exact ⟨hcall.2 u hready, hcall.1 _ _ hready (ready_init data)⟩
    | false =>
        have hcall : Settled (Consistent data) g.call (Consistent data) :=
          settled_call_of_not hreads hname
        exact ⟨hcall.2 u h, hcall.1 _ _ h (consistent_init data)⟩

theorem consistent_located (data : List Char) : Consistent data (located data) where
  text := rfl
  scheme := .inr ⟨rfl, rfl, rfl⟩
  userInfo := .inr ⟨rfl, rfl⟩
  fragment := .inr rfl
  query := .inr ⟨rfl, rfl⟩
  path := .inr ⟨rfl, rfl, rfl⟩
  port := .inr ⟨rfl, rfl, rfl, fun _ => rfl⟩

theorem first_eq_located (hname : g ≠ hasUsername) :
    g.first data = (g.call (located data)).1 := by
  cases hreads : g.readsUserInfo with
  | true =>
      have hcall : Settled (Ready data) g.call (Consistent data) := settled_call hreads
      exact hcall.1 _ _ (ready_init data) (ready_of_knows ⟨consistent_located data, rfl⟩)
  | false =>
      have hcall : Settled (Consistent data) g.call (Consistent data) :=
        settled_call_of_not hreads hname
      exact hcall.1 _ _ (consistent_init data) (consistent_located data)

/-! ## Texts on which the order does not matter -/

theorem fragmentStartOf_le (data : List Char) : fragmentStartOf data ≤ data.length := by
  rw [fragmentStartOf]
  cases hfirst : findFirstOf ['#'] data with
  | none => exact le_rfl
  | some i => exact (Text.lt_of_findFirstOf hfirst).le

theorem known_nextSection (h : Consistent data u) :
    u.nextSection = data.length ∨ u.nextSection ∈ limits data := by
  have hnone : ∀ field : UriString → Option ℕ, field u = none → u.offset field = data.length := by
    intro field hfield
    rw [offset, hfield, h.text]
    rfl
  have hle := fragmentStartOf_le data
  have hF : (located data).offset fragmentStart = fragmentStartOf data := rfl
  have hQ : (located data).offset queryStart = queryStartOf data (fragmentStartOf data) := rfl
  rw [nextSection, h.text]
  obtain hfragment | hfragment := h.fragment
  · have hquery : u.queryStart = none :=
      h.query.resolve_right fun hq => hq.2.ne_none rfl hfragment
    have hpath : u.authorityEnd = none :=
      h.path.resolve_right fun hp => hp.2.2.ne_none rfl hquery
    rw [hnone _ hpath, hnone _ hquery, hnone _ hfragment, min_self, min_self, min_self]
    exact .inl rfl
  · rw [hfragment.offset_eq h.text, hF]
    obtain hquery | ⟨hquery, -⟩ := h.query
    · have hpath : u.authorityEnd = none :=
        h.path.resolve_right fun hp => hp.2.2.ne_none rfl hquery
      rw [hnone _ hpath, hnone _ hquery, min_self, min_eq_right hle, min_eq_left hle]
      exact .inr List.mem_cons_self
    · have hmin : ∀ e : ℕ, min (min e (fragmentStartOf data)) data.length =
          min e (fragmentStartOf data) := fun e => min_eq_left ((min_le_right _ _).trans hle)
      rw [hquery.offset_eq h.text, hQ, hmin]
      right
      obtain hpath | ⟨hpath, -⟩ := h.path
      · rw [hnone _ hpath, min_assoc, min_eq_right ((min_le_right _ _).trans hle)]
        exact List.mem_cons_of_mem _ List.mem_cons_self
      · rw [hpath.offset_eq h.text, min_assoc]
        exact List.mem_cons_of_mem _ (List.mem_cons_of_mem _ List.mem_cons_self)

theorem allowed_of_userInfoInFront (hfront : UserInfoInFront data)
    (h : Consistent data u) (g : Getter) : Allowed u g := by
  obtain ⟨d, hfound⟩ := hfront
  obtain ⟨hsep, hlimits⟩ := (foundInFront_iff data d).mp hfound
  constructor
  · intro _ _ e he
    rw [h.text] at he ⊢
    rw [Option.mem_def, hsep, Option.some.injEq] at he
    subst he
    obtain hlength | hmem := known_nextSection h
    · rw [hlength]
      have hlt := lt_of_separatorOf hsep
      rw [List.length_drop] at hlt
      exact .inr (Nat.add_lt_of_lt_sub' hlt)
    · exact hlimits _ hmem
  · intro _ heq
    have hlt := userInfoEndOf_length_lt hsep
    obtain hnone | ⟨hknown, -⟩ := h.userInfo
    · rw [hnone] at heq
      cases heq
    · rw [hknown, h.text] at heq
      exact hlt.ne (Option.some.inj heq)

/-! ## Texts on which the order matters -/

/-- After a search that found no user information, `has_username` says so, and a first call
does not. -/
theorem not_answersFirst_of_none
    (hsep : separatorOf (data.drop (schemeOf data).authorityStart) = none) :
    ¬ AnswersFirst data (hasUserInfo.step { data := data }) hasUsername := by
  have hnone := userInfoEndOf_of_none (schemeOf_authorityStart_le data) hsep
  have hstep : hasUserInfo.step { data := data } =
      (({ data := data } : UriString).keepScheme data).keepUserInfo data :=
    parseUserInfo_eq (ready_init data)
  intro h
  rw [AnswersFirst, hstep] at h
  have hflag : (some (userInfoEndOf data (schemeOf data).authorityStart data.length) !=
      some data.length) = true := Answer.flag.inj h
  rw [hnone] at hflag
  exact bne_iff_ne.mp hflag rfl

theorem call_hasUserInfo (h : Consistent data u) (hnone : u.userInfoEnd = none) :
    (hasUserInfo.call u).1 =
      .flag (userInfoEndOf data (schemeOf data).authorityStart u.nextSection != data.length &&
        (schemeOf data).authorityStart != data.length) := by
  obtain rfl := h.text
  change Answer.flag (u.parseUserInfo.offset userInfoEnd != u.parseUserInfo.data.length &&
    u.parseUserInfo.offset authorityStart != u.parseUserInfo.data.length) = _
  rw [parseUserInfo, hnone, Option.isSome_none, if_neg Bool.false_ne_true, parseScheme_eq h]
  rfl

theorem exists_limited {limit : ℕ} (hlimit : limit ∈ limits data) :
    ∃ g : Getter, Consistent data (g.step { data := data }) ∧
      (g.step { data := data }).userInfoEnd = none ∧
        (g.step { data := data }).nextSection = limit := by
  have hinit := consistent_init data
  have hle := fragmentStartOf_le data
  simp only [limits, List.mem_cons, List.not_mem_nil, or_false] at hlimit
  obtain rfl | rfl | rfl := hlimit
  · have hstep : hasFragment.step { data := data } = _ := parseFragment_eq hinit
    refine ⟨hasFragment, ?_⟩
    rw [hstep]
    refine ⟨hinit.keepFragment, rfl, ?_⟩
    change min (min (min data.length data.length) (fragmentStartOf data)) data.length = _
    rw [min_self, min_eq_right hle, min_eq_left hle]
  · have hstep : hasQueries.step { data := data } = _ := parseQuery_eq hinit
    refine ⟨hasQueries, ?_⟩
    rw [hstep]
    refine ⟨hinit.keepFragment.keepQuery rfl, rfl, ?_⟩
    change min (min (min data.length (queryStartOf data (fragmentStartOf data)))
      (fragmentStartOf data)) data.length = _
    rw [min_eq_left ((min_le_right _ _).trans hle), min_assoc,
      min_eq_right ((min_le_right _ _).trans hle)]
  · have hstep : hasPath.step { data := data } = _ := parsePath_eq hinit
    refine ⟨hasPath, ?_⟩
    rw [hstep]
    refine ⟨(hinit.keepScheme.keepFragment.keepQuery rfl).keepPath rfl rfl, rfl, ?_⟩
    change min (min (min (authorityEndOf data (schemeOf data).schemeEnd
      (schemeOf data).authorityStart (queryStartOf data (fragmentStartOf data)))
        (queryStartOf data (fragmentStartOf data))) (fragmentStartOf data)) data.length = _
    rw [min_eq_left ((min_le_right _ _).trans hle), min_assoc]

theorem not_answersFirst_of_limit {d : ℕ}
    (hsep : separatorOf (data.drop (schemeOf data).authorityStart) = some d)
    (hcons : Consistent data (g.step { data := data }))
    (hnone : (g.step { data := data }).userInfoEnd = none)
    (hstart : (schemeOf data).authorityStart ≤ (g.step { data := data }).nextSection)
    (hlimit : (g.step { data := data }).nextSection ≤ (schemeOf data).authorityStart + d) :
    ¬ AnswersFirst data (g.step { data := data }) hasUserInfo := by
  have hlt := userInfoEndOf_length_lt hsep
  have hlength := lt_of_separatorOf hsep
  rw [List.length_drop] at hlength
  rw [AnswersFirst, call_hasUserInfo hcons hnone, first,
    call_hasUserInfo (consistent_init data) rfl, nextSection_init,
    userInfoEndOf_of_not_before hsep hstart hlimit, bne_self_eq_false, Bool.false_and,
    bne_iff_ne.mpr hlt.ne, bne_iff_ne.mpr (by omega : (schemeOf data).authorityStart ≠ data.length)]
  intro h
  cases h

/-! ## Main result -/

/-- The calls of a run answer what first calls answer, if each of them is allowed; and every
run on a text does, if and only if the text has user information in front. -/
theorem answersFirst_iff (data : List Char) :
    (∀ calls, Run.AtEach step Allowed { data := data } calls →
      Run.AtEach step (AnswersFirst data) { data := data } calls) ∧
    ((∀ calls, Run.AtEach step (AnswersFirst data) { data := data } calls) ↔
      UserInfoInFront data) := by
  constructor
  · intro calls h
    exact Run.atEach_of_invariant (Consistent data) (fun u g hu hg => (consistent_step hu hg).1)
      (fun u g hu hg => (consistent_step hu hg).2) (consistent_init data) h
  · constructor
    · intro h
      cases hsep : separatorOf (data.drop (schemeOf data).authorityStart) with
      | none =>
          exact absurd (h [hasUserInfo, hasUsername]).2.1 (not_answersFirst_of_none hsep)
      | some d =>
          refine ⟨d, (foundInFront_iff data d).mpr ⟨hsep, fun limit hlimit => ?_⟩⟩
          obtain ⟨g, hcons, hnone, rfl⟩ := exists_limited hlimit
          by_contra hbetween
          rw [not_or, Nat.not_lt, Nat.not_lt] at hbetween
          exact not_answersFirst_of_limit hsep hcons hnone hbetween.1 hbetween.2
            (h [g, hasUserInfo]).2.1
    · intro hfront calls
      have hall : Run.AtEach step (fun _ _ => True) ({ data := data } : UriString) calls :=
        Run.atEach_of_forall (fun _ _ => trivial) _ calls
      exact Run.atEach_of_invariant (Consistent data)
        (fun u g hu _ => (consistent_step hu (allowed_of_userInfoInFront hfront hu g)).1)
        (fun u g hu _ => (consistent_step hu (allowed_of_userInfoInFront hfront hu g)).2)
        (consistent_init data) hall

/-- A query behind the host: the `@` in it ends the user information of a first call, and a
call that knows the query does not see it. -/
theorem not_answersFirst_query :
    ¬ ∀ data calls, Run.AtEach step (AnswersFirst data) { data := data } calls := by
  intro h
  have hcall := (h "http://h?a@b".toList [hasQueries, hostRaw]).2.1
  rw [AnswersFirst] at hcall
  revert hcall
  decide

end Getter

end UriString

end Webpp.Uri
