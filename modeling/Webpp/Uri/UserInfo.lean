import Webpp.Uri.UserInfoRounds

/-!
# User and password

The text between the first colon and the `@` is read as a port first. A character that is no
digit ends that attempt, and the text becomes the password; a number that is out of range before
such a character is an error that is not taken back (`parsesCredentials_iff`).
-/

namespace Webpp.Uri

open ComponentEncoder Loop Webpp.Text

variable {σ : Type}

/-! ## The attempt to read a port -/

section Port

variable {O : Output σ} {pass tail : List Char}

/-- `parse_port` has failed, and all but status and position is as before. -/
structure PortRefused (value : UriStatus) (ctx ctx' : Ctx σ) : Prop where
  beg : ctx'.beg = ctx.beg
  scheme : ctx'.scheme = ctx.scheme
  out : ctx'.out = ctx.out
  pos : ctx'.pos ≠ []
  value : ctx'.status.value = value

/-- The error that the digits of the password make. -/
def portRefusal (number : ℕ) : UriStatus :=
  if number ≤ maxPortNumber then .portInvalid else .portOutOfRange

theorem portLoop_other {c : Char} (hdigit : isDigit c = false)
    (hc : isUnreserved c = true ∨ c = '@') (pos : List Char) (value : ℕ) (ctx : Ctx σ) :
    portLoop standardUriParsingOptions (c :: pos) value ctx =
      (none, { ctx with pos := c :: pos }.setError .portInvalid) := by
  have hend : ¬(c = '\\' ∨ c = '\x00' ∨ c = '/' ∨ c = '?' ∨ c = '#') := by
    rintro (rfl | rfl | rfl | rfl | rfl) <;> exact absurd hc (by decide)
  have htab : ¬(isTabOrNewline c = true ∧
      standardUriParsingOptions.ignoreTabsOrNewlines = true) := by
    rintro ⟨htab, -⟩
    have hall : ∀ c ∈ ['\t', '\r', '\n'], ¬(isUnreserved c = true ∨ c = '@') := by decide
    exact hall c (mem_of_isTabOrNewline htab) hc
  have hnot : ¬isDigit c = true := by
    rw [hdigit]
    decide
  rw [portLoop, if_neg hnot, if_neg hend, if_neg htab]

theorem portLoop_refused (tail : List Char) (hpass : IsUnreservedText pass) {value : ℕ}
    (hvalue : value ≤ maxPortNumber) (ctx : Ctx σ) :
    ∃ ctx', portLoop standardUriParsingOptions (pass ++ '@' :: tail) value ctx = (none, ctx') ∧
      PortRefused (portRefusal (numeralFrom value (pass.takeWhile isDigit))) ctx ctx' := by
  induction pass generalizing value with
  | nil =>
      refine ⟨_, portLoop_other (by decide) (.inr rfl) tail value ctx, rfl, rfl, rfl,
        List.cons_ne_nil _ _, ?_⟩
      exact (if_pos hvalue).symm
  | cons c pass ih =>
      obtain ⟨hc, hrest⟩ := List.forall_mem_cons.mp hpass
      rw [List.cons_append]
      by_cases hdigit : isDigit c = true
      · rw [List.takeWhile_cons_of_pos hdigit, numeralFrom_cons, portLoop, if_pos hdigit]
        split
        · rename_i hrange
          refine ⟨_, rfl, rfl, rfl, rfl, ?_, ?_⟩
          · exact List.append_ne_nil_of_right_ne_nil pass (List.cons_ne_nil '@' tail)
          · exact (if_neg (Nat.not_le.mpr (hrange.trans_le (le_numeralFrom _ _)))).symm
        · rename_i hrange
          exact ih hrest (Nat.not_lt.mp hrange)
      · rw [List.takeWhile_cons_of_neg hdigit]
        refine ⟨_, portLoop_other (Bool.eq_false_iff.mpr hdigit) (.inl hc) _ value ctx, rfl, rfl,
          rfl, List.cons_ne_nil _ _, ?_⟩
        exact (if_pos hvalue).symm

theorem parsePort_refused (O : Output σ) (hpass : IsUnreservedText pass) (ctx : Ctx σ)
    (hpos : ctx.pos = pass ++ '@' :: tail) :
    ∃ ctx', parsePort standardUriParsingOptions O ctx = .ok ctx' ∧
      PortRefused (portRefusal (numeralValue (pass.takeWhile isDigit))) ctx ctx' := by
  have hne : ctx.pos ≠ [] := by
    rw [hpos]
    exact List.append_ne_nil_of_right_ne_nil pass (List.cons_ne_nil '@' tail)
  obtain ⟨ctx', hloop, hrefused⟩ := portLoop_refused tail hpass (Nat.zero_le _) ctx
  refine ⟨ctx', ?_, hrefused⟩
  rw [parsePort, if_neg hne, if_neg (by decide), hpos]
  dsimp only
  rw [hloop]
  rfl

end Port

/-! ## The colon -/

section Colon

variable {o : Options} {O : Output σ} {pass tail : List Char} {s : AuthorityState σ}

theorem authorityColon_password (ho : o.parseCredentails = true) (hpass : IsUnreservedText pass)
    (hpos : s.coder.ctx.pos = ':' :: (pass ++ '@' :: tail)) (hcolon : s.colonPos = [])
    (hnumber : numeralValue (pass.takeWhile isDigit) ≤ maxPortNumber) :
    ∃ e, authorityColon o O true s =
        .ok (.next ⟨e, s.hostBegin, ':' :: (pass ++ '@' :: tail), true⟩) ∧
      e.ctx.beg = s.coder.ctx.beg ∧ e.ctx.scheme = s.coder.ctx.scheme ∧
      e.ctx.pos = pass ++ '@' :: tail ∧ e.ctx.out = O.clear .port s.coder.ctx.out := by
  obtain ⟨ctx', hport, hrefused⟩ := parsePort_refused O hpass
    ((s.coder.setPos (pass ++ '@' :: tail)).setValid .validPort).ctx rfl
  have hvalue : ctx'.status.value = .portInvalid := hrefused.value.trans (if_pos hnumber)
  refine ⟨{ s.coder with
    ctx := { ctx' with pos := pass ++ '@' :: tail, out := O.clear .port ctx'.out } }, ?_,
    hrefused.beg, hrefused.scheme, rfl, congrArg (O.clear .port) hrefused.out⟩
  rw [authorityColon, ho, hpos, hcolon]
  dsimp only
  rw [Bool.not_true, Bool.false_and, if_neg Bool.false_ne_true, if_neg Bool.false_ne_true,
    advance_one_cons, ok_bind, hport, ok_bind, if_pos hvalue, if_pos rfl]
  rfl

/-- A number that is out of range is an error, whatever follows. -/
theorem authorityColon_outOfRange (ho : o.parseCredentails = true)
    (hpass : IsUnreservedText pass)
    (hpos : s.coder.ctx.pos = ':' :: (pass ++ '@' :: tail))
    (hnumber : maxPortNumber < numeralValue (pass.takeWhile isDigit)) :
    ∃ ctx, authorityColon o O true s = .ok (.done (.returned ctx)) ∧
      ctx.status.hasError = true := by
  obtain ⟨ctx', hport, hrefused⟩ := parsePort_refused O hpass
    ((s.coder.setPos (pass ++ '@' :: tail)).setValid .validPort).ctx rfl
  have hvalue : ctx'.status.value = .portOutOfRange :=
    hrefused.value.trans (if_neg (Nat.not_le.mpr hnumber))
  have hinvalid : ¬ctx'.status.value = .portInvalid := by
    rw [hvalue]
    decide
  rw [authorityColon, ho, hpos]
  dsimp only
  rw [Bool.not_true, Bool.false_and, if_neg Bool.false_ne_true, if_neg Bool.false_ne_true,
    advance_one_cons, ok_bind, hport, ok_bind, if_neg hinvalid]
  -- the host is stored, and the error stays
  have hend := endSegmentOf_movedTo O .host { s.coder with ctx := ctx' } s.coder.beg
    (':' :: (pass ++ '@' :: tail))
  have hset := setValueOf_movedTo O .host (endSegmentOf O .host s.coder.beg
    (':' :: (pass ++ '@' :: tail)) { s.coder with ctx := ctx' }) s.hostBegin
    (':' :: (pass ++ '@' :: tail))
  rw [hend.pos] at hset
  have hmoved := hend.trans hset
  generalize setValueOf O .host s.hostBegin (':' :: (pass ++ '@' :: tail))
    (endSegmentOf O .host s.coder.beg (':' :: (pass ++ '@' :: tail))
      { s.coder with ctx := ctx' }) = e at hmoved
  have herror : e.ctx.status.hasError = true := by
    rw [Status.hasError, hmoved.value]
    show ctx'.status.value.hasError = true
    rw [hvalue]
    rfl
  have hpos' : ¬e.ctx.pos = [] := by
    rw [hmoved.pos]
    exact hrefused.pos
  split
  · split
    · exact ⟨_, rfl, rfl⟩
    · exact ⟨_, rfl, herror⟩
  · exact ⟨_, rfl, herror⟩

end Colon

/-! ## The `@` -/

/-- What is stored of the text of a user or a password. -/
def userInfoText (O : Output σ) (text : List Char) : List Char :=
  if O.isModifiable then text.flatMap (encodeUriChar userInfoEncodeSet) else text

/-- The output with a user or a password. -/
def storeUserInfo (O : Output σ) (comp : Components) (text : List Char) (out : σ) : σ :=
  if O.isModifiable then O.append comp (userInfoText O text) (O.clear comp out)
  else O.setValue comp (userInfoText O text) [] (O.clear comp out)

def storeCredentials (O : Output σ) (user pass : List Char) (out : σ) : σ :=
  storeUserInfo O .password pass (storeUserInfo O .username user out)

/-- User and password are beside the host, and are kept as they are stored. -/
structure KeepsUserInfo (O : Output σ) : Prop where
  beside : ∀ comp, comp = .username ∨ comp = .password → ∀ text,
    BesideHost O (storeUserInfo O comp text)
  setValue_slice : ∀ comp start stop out,
    O.setValue comp start stop out = O.setValue comp (slice start stop) [] out
  view_self : ∀ comp, comp = .username ∨ comp = .password → ∀ text out,
    O.view comp (storeUserInfo O comp text out) = userInfoText O text
  view_username : ∀ text out,
    O.view .username (storeUserInfo O .password text out) = O.view .username out
  view_host : ∀ comp, comp = .username ∨ comp = .password → ∀ text out,
    O.view .host (storeUserInfo O comp text out) = O.view .host out
  segments_host : ∀ comp, comp = .username ∨ comp = .password → ∀ text out,
    O.segments .host (storeUserInfo O comp text out) = O.segments .host out

theorem KeepsUserInfo.storeCredentials {O : Output σ} (hO : KeepsUserInfo O)
    (user pass : List Char) : BesideHost O (storeCredentials O user pass) :=
  (hO.beside .password (.inr rfl) pass).comp (hO.beside .username (.inl rfl) user)

section Atsign

variable {o : Options} {O : Output σ} {user pass tail : List Char}

theorem resetAndEncode_eq (hO : KeepsUserInfo O) {comp : Components}
    (hcomp : comp = .username ∨ comp = .password) (start stop : List Char) (ctx : Ctx σ) :
    resetAndEncode O comp start stop ctx =
      { ctx with out := storeUserInfo O comp (slice start stop) ctx.out } := by
  have hsegments : isSeg O comp = false := by
    rcases hcomp with rfl | rfl <;> simp [isSeg, isVec, isMap, Components.isVec]
  rw [resetAndEncode, encodeOrSet, storeUserInfo, userInfoText]
  by_cases hmodifiable : O.isModifiable = true
  · rw [if_pos hmodifiable, if_pos hmodifiable, if_pos hmodifiable]
    rfl
  · rw [if_neg hmodifiable, if_neg hmodifiable, if_neg hmodifiable, ← hO.setValue_slice,
      setValueOf, hsegments, if_pos (by simpa using hmodifiable)]
    rfl

theorem parseCredentials_eq (hO : KeepsUserInfo O) {ctx : Ctx σ} (hpos : ctx.pos = '@' :: tail) :
    parseCredentials O (user ++ ':' :: (pass ++ '@' :: tail)) (':' :: (pass ++ '@' :: tail)) ctx =
      { ctx.setWarning .hasCredentials with
        out := storeCredentials O user pass ctx.out } := by
  have hlength : ¬(':' :: (pass ++ '@' :: tail)).length < ('@' :: tail).length := by
    simp only [List.length_cons, List.length_append]
    omega
  rw [parseCredentials, Ctx.setWarning_pos, hpos, if_neg (List.cons_ne_nil '@' tail),
    if_neg hlength, if_neg (List.cons_ne_nil ':' _), resetAndEncode_eq hO (.inl rfl),
    resetAndEncode_eq hO (.inr rfl), slice_append, List.tail_cons, slice_append]
  rfl

/-- What was read becomes the credentials, and the host begins behind the `@`. -/
theorem authorityAtsign_credentials (user : List Char) (hO : KeepsUserInfo O)
    (ho : o.parseCredentails = true) {s : AuthorityState σ} (hpos : s.coder.ctx.pos = '@' :: tail)
    (hcolon : s.colonPos = ':' :: (pass ++ '@' :: tail)) :
    ∃ e, authorityAtsign o O (user ++ ':' :: (pass ++ '@' :: tail)) s =
        .ok (.next ⟨startSegment O .host e, tail, s.colonPos, false⟩) ∧
      e.ctx.beg = s.coder.ctx.beg ∧ e.ctx.scheme = s.coder.ctx.scheme ∧ e.ctx.pos = tail ∧
      e.beg = tail ∧
      e.ctx.out = O.clear .host (storeCredentials O user pass s.coder.ctx.out) := by
  rw [authorityAtsign, if_pos ho, hcolon, parseCredentials_eq hO hpos]
  dsimp only
  rw [Ctx.setWarning_pos, hpos, advance_one_cons, ok_bind]
  exact ⟨_, rfl, rfl, rfl, rfl, rfl, rfl⟩

end Atsign

/-! ## The kinds of contexts -/

theorem slice_nil (text : List Char) : slice text [] = text := by
  rw [slice, List.length_nil, Nat.sub_zero, List.take_length]

section Strings

variable {comp : Components}

theorem stringOutput_clearsHost : ClearsHost stringOutput where
  setValue _ _ _ := Function.update_idem _ _ _
  append _ _ := Function.update_idem _ _ _
  editSegments _ _ := rfl
  port out := Function.update_comm (by decide) _ _ out

theorem viewOutput_clearsHost : ClearsHost viewOutput where
  setValue := stringOutput_clearsHost.setValue
  append := stringOutput_clearsHost.append
  editSegments := stringOutput_clearsHost.editSegments
  port := stringOutput_clearsHost.port

theorem stringOutput_update (hcomp : comp = .username ∨ comp = .password) (text : List Char) :
    BesideHost stringOutput (fun out => Function.update out comp text) where
  setValue comp' hcomp' start stop out := by
    refine Function.update_comm ?_ _ _ out
    rcases hcomp with rfl | rfl <;> rcases hcomp' with rfl | rfl <;> decide
  clear comp' hcomp' out := by
    refine Function.update_comm ?_ _ _ out
    rcases hcomp with rfl | rfl <;> rcases hcomp' with rfl | rfl <;> decide
  append chars out := by
    funext c
    rcases hcomp with rfl | rfl <;> cases c <;> rfl
  editSegments _ _ := rfl
  hasValue _ := by rcases hcomp with rfl | rfl <;> rfl
  scheme _ := by rcases hcomp with rfl | rfl <;> rfl

theorem viewOutput_update (hcomp : comp = .username ∨ comp = .password) (text : List Char) :
    BesideHost viewOutput (fun out => Function.update out comp text) where
  setValue := (stringOutput_update hcomp text).setValue
  clear := (stringOutput_update hcomp text).clear
  append := (stringOutput_update hcomp text).append
  editSegments := (stringOutput_update hcomp text).editSegments
  hasValue := (stringOutput_update hcomp text).hasValue
  scheme := (stringOutput_update hcomp text).scheme

theorem storeUserInfo_stringOutput (comp : Components) (text : List Char) :
    storeUserInfo stringOutput comp text =
      fun out => Function.update out comp (userInfoText stringOutput text) := by
  funext out
  show Function.update (Function.update out comp []) comp
    (Function.update out comp [] comp ++ userInfoText stringOutput text) = _
  rw [Function.update_idem, Function.update_self, List.nil_append]

theorem storeUserInfo_viewOutput (comp : Components) (text : List Char) :
    storeUserInfo viewOutput comp text =
      fun out => Function.update out comp (userInfoText viewOutput text) := by
  funext out
  show Function.update (Function.update out comp []) comp
    (slice (userInfoText viewOutput text) []) = _
  rw [Function.update_idem, slice_nil]

theorem stringOutput_keepsUserInfo : KeepsUserInfo stringOutput where
  beside comp hcomp text := by
    rw [storeUserInfo_stringOutput]
    exact stringOutput_update hcomp _
  setValue_slice comp start stop out :=
    congrArg (Function.update out comp) (slice_nil (slice start stop)).symm
  view_self comp _ text out := by
    rw [storeUserInfo_stringOutput]
    exact Function.update_self comp _ out
  view_username text out := rfl
  view_host comp hcomp text out := by rcases hcomp with rfl | rfl <;> rfl
  segments_host comp hcomp text out := by rcases hcomp with rfl | rfl <;> rfl

theorem viewOutput_keepsUserInfo : KeepsUserInfo viewOutput where
  beside comp hcomp text := by
    rw [storeUserInfo_viewOutput]
    exact viewOutput_update hcomp _
  setValue_slice := stringOutput_keepsUserInfo.setValue_slice
  view_self comp _ text out := by
    rw [storeUserInfo_viewOutput]
    exact Function.update_self comp _ out
  view_username text out := rfl
  view_host comp hcomp text out := by rcases hcomp with rfl | rfl <;> rfl
  segments_host comp hcomp text out := by rcases hcomp with rfl | rfl <;> rfl

end Strings

section Segregated

variable {comp : Components}

/-- A segregated output with another text. -/
def Segregated.update (comp : Components) (text : List Char) (out : Segregated) : Segregated :=
  { out with strings := Function.update out.strings comp text }

theorem segregatedOutput_clearsHost : ClearsHost segregatedOutput where
  setValue _ _ out := congrArg (Segregated.mk out.strings · out.queries)
    (Function.update_idem _ _ out.segments)
  append _ out := congrArg (Segregated.mk out.strings · out.queries)
    (Function.update_idem _ _ out.segments)
  editSegments _ out := congrArg (Segregated.mk out.strings · out.queries)
    (Function.update_idem _ _ out.segments)
  port _ := rfl

theorem segregatedViewOutput_clearsHost : ClearsHost segregatedViewOutput where
  setValue := segregatedOutput_clearsHost.setValue
  append := segregatedOutput_clearsHost.append
  editSegments := segregatedOutput_clearsHost.editSegments
  port := segregatedOutput_clearsHost.port

theorem segregatedOutput_update (hcomp : comp = .username ∨ comp = .password)
    (text : List Char) : BesideHost segregatedOutput (Segregated.update comp text) where
  setValue comp' hcomp' start stop out := by
    rcases hcomp' with rfl | rfl
    · rfl
    · refine congrArg (Segregated.mk · out.segments out.queries) (Function.update_comm ?_ _ _ _)
      rcases hcomp with rfl | rfl <;> decide
  clear comp' hcomp' out := by
    rcases hcomp' with rfl | rfl
    · rfl
    · refine congrArg (Segregated.mk · out.segments out.queries) (Function.update_comm ?_ _ _ _)
      rcases hcomp with rfl | rfl <;> decide
  append _ _ := rfl
  editSegments _ _ := rfl
  hasValue _ := rfl
  scheme _ := by rcases hcomp with rfl | rfl <;> rfl

theorem segregatedViewOutput_update (hcomp : comp = .username ∨ comp = .password)
    (text : List Char) : BesideHost segregatedViewOutput (Segregated.update comp text) where
  setValue := (segregatedOutput_update hcomp text).setValue
  clear := (segregatedOutput_update hcomp text).clear
  append := (segregatedOutput_update hcomp text).append
  editSegments := (segregatedOutput_update hcomp text).editSegments
  hasValue := (segregatedOutput_update hcomp text).hasValue
  scheme := (segregatedOutput_update hcomp text).scheme

theorem storeUserInfo_segregatedOutput (hcomp : comp = .username ∨ comp = .password)
    (text : List Char) : storeUserInfo segregatedOutput comp text =
      Segregated.update comp (userInfoText segregatedOutput text) := by
  funext out
  have hstrings := congrFun (storeUserInfo_stringOutput comp text) out.strings
  rcases hcomp with rfl | rfl <;>
    exact congrArg (Segregated.mk · out.segments out.queries) hstrings

theorem storeUserInfo_segregatedViewOutput (hcomp : comp = .username ∨ comp = .password)
    (text : List Char) : storeUserInfo segregatedViewOutput comp text =
      Segregated.update comp (userInfoText segregatedViewOutput text) := by
  funext out
  have hstrings := congrFun (storeUserInfo_viewOutput comp text) out.strings
  rcases hcomp with rfl | rfl <;>
    exact congrArg (Segregated.mk · out.segments out.queries) hstrings

theorem segregatedOutput_keepsUserInfo : KeepsUserInfo segregatedOutput where
  beside comp hcomp text := by
    rw [storeUserInfo_segregatedOutput hcomp]
    exact segregatedOutput_update hcomp _
  setValue_slice comp start stop out := by
    show segregatedOutput.setValue comp start stop out = ite _ _ _
    rw [slice_nil]
    rfl
  view_self comp hcomp text out := by
    rw [storeUserInfo_segregatedOutput hcomp]
    exact Function.update_self comp _ out.strings
  view_username _ _ := rfl
  view_host comp hcomp text out := by rcases hcomp with rfl | rfl <;> rfl
  segments_host comp hcomp text out := by rcases hcomp with rfl | rfl <;> rfl

theorem segregatedViewOutput_keepsUserInfo : KeepsUserInfo segregatedViewOutput where
  beside comp hcomp text := by
    rw [storeUserInfo_segregatedViewOutput hcomp]
    exact segregatedViewOutput_update hcomp _
  setValue_slice := segregatedOutput_keepsUserInfo.setValue_slice
  view_self comp hcomp text out := by
    rw [storeUserInfo_segregatedViewOutput hcomp]
    exact Function.update_self comp _ out.strings
  view_username _ _ := rfl
  view_host comp hcomp text out := by rcases hcomp with rfl | rfl <;> rfl
  segments_host comp hcomp text out := by rcases hcomp with rfl | rfl <;> rfl

end Segregated

end Webpp.Uri
