import Webpp.Uri.HostBeforePort

/-!
# Hosts with ports in the contexts

What a context has to do for `readsAlike_iff` it does for every kind of it. The offsets of a
context of 32-bit numbers are one apart from the zeros in front of a port: the host that is
derived from them ends before the digits that are stored of the port.
-/

namespace Webpp.Uri

open Webpp.Text

/-! ## Offsets -/

namespace Offsets

def maxSupportedLength : ℕ := 0xFFFFFFFE

theorem toNat_min (a b : UInt32) : (min a b).toNat = min a.toNat b.toNat := by
  show (if a ≤ b then a else b).toNat = _
  rw [Nat.min_def]
  by_cases h : a ≤ b
  · rw [if_pos h, if_pos (UInt32.le_iff_toNat_le.mp h)]
  · rw [if_neg h, if_neg fun hle => h (UInt32.le_iff_toNat_le.mpr hle)]

theorem toNat_max (a b : UInt32) : (max a b).toNat = max a.toNat b.toNat := by
  show (if a ≤ b then b else a).toNat = _
  rw [Nat.max_def]
  by_cases h : a ≤ b
  · rw [if_pos h, if_pos (UInt32.le_iff_toNat_le.mp h)]
  · rw [if_neg h, if_neg fun hle => h (UInt32.le_iff_toNat_le.mpr hle)]

section Offset

variable {u : Offsets} {front text rest : List Char}

theorem toNat_offset (hlength : u.uriBeg.length ≤ maxSupportedLength)
    (hbeg : u.uriBeg = front ++ rest) : (u.offset rest).toNat = front.length := by
  have hfront : u.uriBeg.length - rest.length = front.length := by
    rw [hbeg, List.length_append, Nat.add_sub_cancel]
  have hle : front.length ≤ maxSupportedLength := by
    rw [← hfront]
    exact (Nat.sub_le _ _).trans hlength
  rw [offset, hfront]
  exact UInt32.toNat_ofNat_of_lt (Nat.lt_of_le_of_lt hle (by decide))

theorem ne_omitted {a : UInt32} (h : a.toNat ≤ maxSupportedLength) : a ≠ omitted := by
  rintro rfl
  exact absurd h (by decide)

theorem text_of_toNat {beg fin : UInt32} (hbeg : u.uriBeg = front ++ (text ++ rest))
    (hfront : beg.toNat = front.length) (hfin : fin.toNat = front.length + text.length) :
    u.text beg (fin - beg) = text := by
  have hle : beg ≤ fin := by
    rw [UInt32.le_iff_toNat_le, hfront, hfin]
    exact Nat.le_add_right _ _
  rw [Offsets.text, UInt32.toNat_sub_of_le _ _ hle, hfront, hfin, Nat.add_sub_cancel_left, hbeg,
    List.drop_left, List.take_left]

end Offset

end Offsets

/-! ## The kinds -/

/-- The output of a kind before parsing. -/
def ContextKind.empty : (kind : ContextKind) → kind.Out
  | string | view => fun _ => []
  | u32 => Offsets.start
  | segregated | segregatedView => ⟨fun _ => [], fun _ => [], []⟩

/-- The context behind `scheme://`. -/
def behindScheme (kind : ContextKind) (scheme authority : List Char) (status : Status) :
    Ctx kind.Out where
  beg := schemeText scheme ++ authority
  pos := authority
  out := kind.output.setValue .scheme (schemeText scheme ++ authority)
    (':' :: '/' :: '/' :: authority) kind.empty
  status := status
  scheme := .specialScheme

/-- What is stored of a port with the host in front of it. -/
def portExtra (kind : ContextKind) (port : List Char) : List Char :=
  match kind with
  | .u32 => (':' :: port).take (port.length - (withoutZeros port).length)
  | _ => []

/-- The offsets of an input are supported. -/
def IsSupported (kind : ContextKind) (text : List Char) : Prop :=
  kind = .u32 → text.length ≤ Offsets.maxSupportedLength

theorem stringOutput_storesHost : StoresHost stringOutput where
  appends := stringOutput_appends
  view_append _ _ chars out := by simp [stringOutput]
  segments_append _ hsegregated := absurd hsegregated Bool.false_ne_true
  segments_edit hsegregated := absurd hsegregated Bool.false_ne_true
  clear _ out := {
    view := fun _ _ => by simp [stringOutput]
    segments := fun hsegregated => absurd hsegregated Bool.false_ne_true }
  port _ start stop out := by simp [hostname, stringOutput]
  scheme_append chars out := by simp [stringOutput]
  scheme_edit g out := rfl

theorem segregatedOutput_storesHost : StoresHost segregatedOutput where
  appends := segregatedOutput_appends
  view_append _ hsegregated := absurd hsegregated.symm Bool.false_ne_true
  segments_append _ _ chars out := by simp [segregatedOutput, Components.isVec]
  segments_edit _ g out := by simp [segregatedOutput]
  clear _ out := {
    view := fun _ hsegregated => absurd hsegregated.symm Bool.false_ne_true
    segments := fun _ => by simp [segregatedOutput, Components.isVec] }
  port _ start stop out := ⟨rfl, rfl⟩
  scheme_append chars out := rfl
  scheme_edit g out := rfl

/-- An output that is not modifiable appends nothing. -/
theorem StoresHost.of_not_modifiable {σ : Type} {O : Output σ}
    (happend : ∀ chars out, O.view .scheme (O.append .host chars out) = O.view .scheme out)
    (hedit : ∀ g out, O.view .scheme (O.editSegments .host g out) = O.view .scheme out)
    (hmodifiable : O.isModifiable = false)
    (hsegments : O.isSegregated = true → ∀ g out,
      O.segments .host (O.editSegments .host g out) = g (O.segments .host out))
    (hport : O.isSegregated = true → ∀ start stop out,
      O.segments .host (O.setValue .port start stop out) = O.segments .host out) :
    StoresHost O := by
  have hnot {P : Prop} (h : O.isModifiable = true) : P :=
    absurd (hmodifiable.symm.trans h) Bool.false_ne_true
  exact {
    appends := fun _ _ _ _ h => hnot h
    view_append := fun h => hnot h
    segments_append := fun h => hnot h
    segments_edit := hsegments
    clear := fun h => hnot h
    port := fun h start stop out => by
      have hsegregated := h.resolve_left fun h => hnot h
      rw [hostname, hostname, if_pos hsegregated, if_pos hsegregated, hport hsegregated]
      exact ⟨rfl, rfl⟩
    scheme_append := happend
    scheme_edit := hedit }

theorem ContextKind.storesHost (kind : ContextKind) : StoresHost kind.output := by
  cases kind with
  | string => exact stringOutput_storesHost
  | view =>
      exact .of_not_modifiable stringOutput_storesHost.scheme_append (fun _ _ => rfl) rfl
        (fun hsegregated => absurd hsegregated Bool.false_ne_true)
        (fun hsegregated => absurd hsegregated Bool.false_ne_true)
  | u32 =>
      exact .of_not_modifiable (fun _ _ => rfl) (fun _ _ => rfl) rfl
        (fun hsegregated => absurd hsegregated Bool.false_ne_true)
        (fun hsegregated => absurd hsegregated Bool.false_ne_true)
  | segregated => exact segregatedOutput_storesHost
  | segregatedView =>
      exact .of_not_modifiable (fun _ _ => rfl) (fun _ _ => rfl) rfl
        (fun _ g out => segregatedOutput_storesHost.segments_edit rfl g out)
        (fun _ _ _ _ => rfl)

/-! ### Views of offsets -/

theorem withoutZeros_suffix (text : List Char) : withoutZeros text <:+ text := by
  induction text with
  | nil => exact List.suffix_rfl
  | cons c text ih =>
      rw [withoutZeros]
      split
      · exact ih.trans (List.suffix_cons c text)
      · exact List.suffix_rfl

namespace Offsets

section Views

variable {u : Offsets} {scheme front host extra port pos text rest : List Char}

theorem set_scheme_start (start stop : List Char) :
    Offsets.start.set .scheme start stop =
      { Offsets.start with
        uriBeg := start
        schemeEnd := UInt32.ofNat (start.length - stop.length)
        uriEnd := UInt32.ofNat (start.length - stop.length) } := rfl

theorem get_scheme (hbeg : u.uriBeg = scheme ++ rest) (hend : u.schemeEnd.toNat = scheme.length)
    (hsupported : scheme.length ≤ maxSupportedLength) (huri : u.uriEnd = u.schemeEnd) :
    u.get .scheme = scheme := by
  have hne : u.schemeEnd ≠ omitted := ne_omitted (hend.trans_le hsupported)
  have hfin : (min u.schemeEnd u.size).toNat = scheme.length := by
    rw [toNat_min, size, huri, if_neg hne, Nat.min_self, hend]
  rw [get, if_pos (by rw [has]; simpa using hne)]
  show u.text 0 (min u.schemeEnd u.size) = scheme
  rw [Offsets.text, hfin, hbeg]
  exact List.take_left

theorem get_host (hbeg : u.uriBeg = front ++ (text ++ rest))
    (hstart : u.hostStart.toNat = front.length)
    (hlength : u.uriBeg.length ≤ maxSupportedLength)
    (huri : u.uriEnd.toNat ≤ maxSupportedLength)
    (hfin : min (min (u.portStart - 1).toNat u.authorityEnd.toNat) u.uriEnd.toNat =
      front.length + text.length) : u.get .host = text := by
  have hfront : front.length ≤ maxSupportedLength := by
    rw [hbeg, List.length_append] at hlength
    exact (Nat.le_add_right _ _).trans hlength
  have hsize : u.size = u.uriEnd := if_neg (ne_omitted huri)
  rw [get, if_pos (by rw [has]; simpa using ne_omitted (hstart.trans_le hfront))]
  show u.text u.hostStart (min (min (u.portStart - 1) u.authorityEnd) u.size - u.hostStart) = text
  refine text_of_toNat hbeg hstart ?_
  rw [hsize, toNat_min, toNat_min, hfin]

/-- Nothing but a scheme is set, in front of `front`. -/
structure OnlyScheme (u : Offsets) (front : List Char) : Prop where
  authorityEnd : u.authorityEnd = omitted
  portStart : u.portStart = omitted
  uriEnd : u.uriEnd.toNat ≤ front.length

theorem toNat_setMin {a b : UInt32} (ha : a.toNat ≤ maxSupportedLength) :
    (if a ≠ omitted then max a b else b).toNat = max a.toNat b.toNat := by
  rw [if_pos (ne_omitted ha), toNat_max]

/-- The host of an authority without a port. -/
theorem OnlyScheme.get_host (h : OnlyScheme u front) (hbeg : u.uriBeg = front ++ (text ++ rest))
    (hlength : u.uriBeg.length ≤ maxSupportedLength) :
    (u.set .host (text ++ rest) rest).get .host = text := by
  have hstop : (u.offset rest).toNat = front.length + text.length := by
    rw [toNat_offset hlength (by rw [hbeg, List.append_assoc]), List.length_append]
  have hsupported : front.length + text.length ≤ maxSupportedLength := by
    rw [hbeg, List.length_append, List.length_append] at hlength
    omega
  have huri : (u.set .host (text ++ rest) rest).uriEnd.toNat = front.length + text.length := by
    show (if u.uriEnd ≠ omitted then max u.uriEnd (u.offset rest) else u.offset rest).toNat = _
    have hfront := h.uriEnd
    rw [toNat_setMin (by omega), hstop]
    omega
  have hauthority : (u.set .host (text ++ rest) rest).authorityEnd.toNat =
      front.length + text.length := by
    show (if u.authorityEnd ≠ omitted then max u.authorityEnd (u.offset rest)
      else u.offset rest).toNat = _
    rw [h.authorityEnd, if_neg (by simp), hstop]
  refine Offsets.get_host hbeg (toNat_offset hlength hbeg) hlength (huri.trans_le hsupported) ?_
  have hport : (u.set .host (text ++ rest) rest).portStart = omitted := h.portStart
  rw [hport, hauthority, huri, Nat.min_assoc, Nat.min_self]
  exact Nat.min_eq_right hsupported

/-- The offsets behind a port. -/
structure BehindPort (u : Offsets) (host port front : List Char) : Prop where
  portStart : u.portStart.toNat =
    front.length + host.length + 1 + (port.length - (withoutZeros port).length)
  authorityEnd : u.authorityEnd.toNat = front.length + host.length + 1 + port.length
  uriEnd : u.uriEnd.toNat = front.length + host.length + 1 + port.length

theorem OnlyScheme.set_port (h : OnlyScheme u front) {port : List Char}
    (hbeg : u.uriBeg = front ++ (host ++ ':' :: (port ++ rest)))
    (hlength : u.uriBeg.length ≤ maxSupportedLength) :
    BehindPort (u.set .port (withoutZeros port ++ rest) rest) host port front := by
  obtain ⟨zeros, hzeros⟩ := withoutZeros_suffix port
  have hcount : port.length = zeros.length + (withoutZeros port).length := by
    rw [← List.length_append, hzeros]
  have hsupported := hlength
  rw [hbeg] at hsupported
  simp only [List.length_append, List.length_cons] at hsupported
  have hstart : (u.offset (withoutZeros port ++ rest)).toNat =
      front.length + host.length + 1 + zeros.length := by
    have hsplit : u.uriBeg = front ++ (host ++ ':' :: zeros) ++ (withoutZeros port ++ rest) := by
      rw [hbeg]
      nth_rewrite 1 [← hzeros]
      simp
    rw [toNat_offset hlength hsplit]
    simp only [List.length_append, List.length_cons]
    omega
  have hend : (u.offset rest).toNat = front.length + host.length + 1 + port.length := by
    have hsplit : u.uriBeg = front ++ (host ++ ':' :: port) ++ rest := by
      rw [hbeg]
      simp
    rw [toNat_offset hlength hsplit]
    simp only [List.length_append, List.length_cons]
    omega
  refine ⟨?_, ?_, ?_⟩
  · show (u.offset (withoutZeros port ++ rest)).toNat = _
    omega
  · show (if u.authorityEnd ≠ omitted then max u.authorityEnd (u.offset rest)
      else u.offset rest).toNat = _
    rw [h.authorityEnd, if_neg (by simp), hend]
  · have hfront := h.uriEnd
    show (if u.uriEnd ≠ omitted then max u.uriEnd (u.offset rest) else u.offset rest).toNat = _
    rw [toNat_setMin (by omega), hend]
    omega

theorem OnlyScheme.get_host_port (h : OnlyScheme u front) {port : List Char}
    (hbeg : u.uriBeg = front ++ (host ++ ':' :: (port ++ rest)))
    (hlength : u.uriBeg.length ≤ maxSupportedLength) :
    ((u.set .port (withoutZeros port ++ rest) rest).set .host (host ++ ':' :: (port ++ rest))
      (':' :: (port ++ rest))).get .host =
        host ++ (':' :: port).take (port.length - (withoutZeros port).length) := by
  obtain ⟨hportStart, hauthority₁, huri₁⟩ := h.set_port hbeg hlength
  have hsupported := hlength
  rw [hbeg] at hsupported
  simp only [List.length_append, List.length_cons] at hsupported
  have hbeg₁ : (u.set .port (withoutZeros port ++ rest) rest).uriBeg = u.uriBeg := rfl
  generalize u.set .port (withoutZeros port ++ rest) rest = u₁ at *
  rw [← hbeg₁] at hbeg hlength
  have hcolon : (u₁.offset (':' :: (port ++ rest))).toNat = front.length + host.length := by
    rw [toNat_offset hlength (by rw [hbeg, List.append_assoc]), List.length_append]
  have hone : (1 : UInt32) ≤ u₁.portStart := by
    rw [UInt32.le_iff_toNat_le, hportStart]
    show 1 ≤ _
    omega
  have hport : (u₁.portStart - 1).toNat =
      front.length + host.length + (port.length - (withoutZeros port).length) := by
    rw [UInt32.toNat_sub_of_le _ _ hone, hportStart]
    show _ - 1 = _
    omega
  -- the colon of the port is in front of the ends that the port has set
  have hauthority : (u₁.set .host (host ++ ':' :: (port ++ rest))
      (':' :: (port ++ rest))).authorityEnd.toNat = u₁.authorityEnd.toNat := by
    show (if u₁.authorityEnd ≠ omitted then max u₁.authorityEnd
      (u₁.offset (':' :: (port ++ rest))) else u₁.offset (':' :: (port ++ rest))).toNat = _
    rw [toNat_setMin (by omega), hcolon]
    omega
  have huri : (u₁.set .host (host ++ ':' :: (port ++ rest))
      (':' :: (port ++ rest))).uriEnd.toNat = u₁.uriEnd.toNat := by
    show (if u₁.uriEnd ≠ omitted then max u₁.uriEnd
      (u₁.offset (':' :: (port ++ rest))) else u₁.offset (':' :: (port ++ rest))).toNat = _
    rw [toNat_setMin (by omega), hcolon]
    omega
  have hsplit : u₁.uriBeg = front ++ ((host ++
      (':' :: port).take (port.length - (withoutZeros port).length)) ++
        ((':' :: port).drop (port.length - (withoutZeros port).length) ++ rest)) := by
    rw [List.append_assoc, ← List.append_assoc (List.take _ _), List.take_append_drop]
    exact hbeg
  refine Offsets.get_host hsplit (toNat_offset hlength hbeg) hlength
    (huri.trans_le (by omega)) ?_
  show min (min (u₁.portStart - 1).toNat _) _ = _
  rw [hport, hauthority, huri, List.length_append, List.length_take, List.length_cons]
  omega

end Views

end Offsets

/-! ### Starts -/

section Starts

variable {kind : ContextKind} {scheme host port : List Char}

theorem onlyScheme_behindScheme {authority : List Char} (status : Status)
    (hlength : (schemeText scheme ++ authority).length ≤ Offsets.maxSupportedLength) :
    Offsets.OnlyScheme (behindScheme .u32 scheme authority status).out (schemeText scheme) ∧
      ContextKind.u32.output.view .scheme (behindScheme .u32 scheme authority status).out =
        scheme := by
  have hscheme : scheme.length ≤ Offsets.maxSupportedLength := by
    simp only [schemeText, List.length_append] at hlength
    omega
  have hcount : (schemeText scheme ++ authority).length -
      (':' :: '/' :: '/' :: authority).length = scheme.length := by
    simp only [schemeText, List.length_append, List.length_cons, List.length_nil]
    omega
  have hend : (UInt32.ofNat scheme.length).toNat = scheme.length :=
    UInt32.toNat_ofNat_of_lt (Nat.lt_of_le_of_lt hscheme (by decide))
  have hout : (behindScheme .u32 scheme authority status).out =
      { Offsets.start with
        uriBeg := schemeText scheme ++ authority
        schemeEnd := UInt32.ofNat scheme.length
        uriEnd := UInt32.ofNat scheme.length } := by
    rw [← hcount]
    exact Offsets.set_scheme_start _ _
  rw [hout]
  refine ⟨⟨rfl, rfl, ?_⟩, ?_⟩
  · show (UInt32.ofNat scheme.length).toNat ≤ _
    rw [hend, schemeText, List.length_append]
    exact Nat.le_add_right _ _
  · exact Offsets.get_scheme (by rw [schemeText, List.append_assoc]) hend hscheme rfl

theorem behindScheme_atAuthority {authority : List Char} (status : Status)
    (hsupported : IsSupported kind (schemeText scheme ++ authority)) :
    AtAuthority kind.output scheme authority (behindScheme kind scheme authority status) := by
  have hslice : slice (schemeText scheme ++ authority) (':' :: '/' :: '/' :: authority) =
      scheme := by
    rw [schemeText, List.append_assoc]
    exact slice_append _ _
  cases kind with
  | string =>
      refine ⟨rfl, rfl, ⟨fun _ _ => ?_, fun hseg => absurd hseg Bool.false_ne_true⟩, ?_, ?_⟩
      · rfl
      · exact fun hmodifiable => absurd hmodifiable.symm Bool.false_ne_true
      · exact hslice
  | view =>
      refine ⟨rfl, rfl, ⟨fun _ _ => ?_, fun hseg => absurd hseg Bool.false_ne_true⟩, ?_, ?_⟩
      · rfl
      · rintro - - read pos (hpos : authority = read ++ pos)
        show slice authority pos = read
        rw [hpos, slice_append]
      · exact hslice
  | u32 =>
      obtain ⟨honly, hscheme⟩ := onlyScheme_behindScheme status (hsupported rfl)
      refine ⟨rfl, rfl, ⟨fun hmod => absurd hmod Bool.false_ne_true, fun hseg =>
        absurd hseg Bool.false_ne_true⟩, ?_, hscheme⟩
      rintro - - read pos (hpos : authority = read ++ pos)
      subst hpos
      exact honly.get_host rfl (hsupported rfl)
  | segregated =>
      refine ⟨rfl, rfl, ⟨fun _ hseg => absurd hseg.symm Bool.false_ne_true, fun _ => rfl⟩, ?_, ?_⟩
      · exact fun hmodifiable => absurd hmodifiable.symm Bool.false_ne_true
      · exact hslice
  | segregatedView =>
      refine ⟨rfl, rfl, ⟨fun _ hseg => absurd hseg.symm Bool.false_ne_true, fun _ => rfl⟩, ?_, ?_⟩
      · exact fun _ hseg => absurd hseg.symm Bool.false_ne_true
      · exact hslice

theorem behindScheme_setsBeforePort (status : Status)
    (hsupported : IsSupported kind (schemeText scheme ++ (host ++ ':' :: (port ++ ['/'])))) :
    SetsBeforePort kind.output
      (behindScheme kind scheme (host ++ ':' :: (port ++ ['/'])) status) host port
      (portExtra kind port) := by
  cases kind with
  | string => rfl
  | view =>
      show slice (host ++ ':' :: (port ++ ['/'])) (':' :: (port ++ ['/'])) = host ++ []
      rw [slice_append, List.append_nil]
  | u32 =>
      obtain ⟨honly, -⟩ := onlyScheme_behindScheme status (hsupported rfl)
      exact honly.get_host_port rfl (hsupported rfl)
  | segregated => rfl
  | segregatedView => rfl

end Starts

/-! ## Ports -/

section Ports

variable {scheme host port : List Char}

theorem portExtra_eq_nil_iff (kind : ContextKind) (port : List Char) :
    portExtra kind port = [] ↔ (kind = .u32 → withoutZeros port = port) := by
  have hsuffix := withoutZeros_suffix port
  cases kind with
  | u32 =>
      rw [forall_prop_of_true rfl, portExtra, List.take_eq_nil_iff, Nat.sub_eq_zero_iff_le,
        or_iff_left (List.cons_ne_nil _ _)]
      exact ⟨fun hle => hsuffix.eq_of_length_le hle, fun heq => heq.symm ▸ le_rfl⟩
  | string => exact iff_of_true rfl fun hkind => ContextKind.noConfusion hkind
  | view => exact iff_of_true rfl fun hkind => ContextKind.noConfusion hkind
  | segregated => exact iff_of_true rfl fun hkind => ContextKind.noConfusion hkind
  | segregatedView => exact iff_of_true rfl fun hkind => ContextKind.noConfusion hkind

/-- A host is accepted with a port as it is without, and stored as the same hostname, exactly if
it reads alike. -/
theorem acceptedAlike_iff (kind : ContextKind) (o : Options)
    (ho : o.parseCredentails = true ∨ o.parsePort = true)
    (status : Status) (hhost : IsBareHost host) (hport : IsPort port)
    (hdefault : portNumber port ≠ knownPort scheme)
    (hsupported : IsSupported kind (schemeText scheme ++ (host ++ ':' :: (port ++ ['/'])))) :
    accepted kind.output (parseAuthorityPieces o kind.output true
        (behindScheme kind scheme (host ++ ':' :: (port ++ ['/'])) status)) =
      accepted kind.output (parseAuthorityPieces o kind.output true
        (behindScheme kind scheme (host ++ ['/']) status)) ↔
      ReadsAlike o kind.output scheme host (kind = .u32 → withoutZeros port = port) := by
  have hshorter : IsSupported kind (schemeText scheme ++ (host ++ ['/'])) := by
    intro hkind
    have hlength := hsupported hkind
    simp only [List.length_append, List.length_cons, List.length_nil] at hlength ⊢
    omega
  rw [← portExtra_eq_nil_iff kind port]
  exact (behindScheme_atAuthority status hshorter).readsAlike_iff kind.storesHost ho
    (behindScheme_atAuthority status hsupported)
    (behindScheme_setsBeforePort status hsupported) hhost hport hdefault

/-- `ab` with a port and without. -/
theorem acceptedAlike_http :
    accepted stringOutput (parseAuthorityPieces standardUriParsingOptions stringOutput true
        (behindScheme .string ['h', 't', 't', 'p'] ['a', 'b', ':', '8', '1', '/'] .start)) =
      accepted stringOutput (parseAuthorityPieces standardUriParsingOptions stringOutput true
        (behindScheme .string ['h', 't', 't', 'p'] ['a', 'b', '/'] .start)) := by
  have hhost : IsBareHost ['a', 'b'] := by
    unfold IsBareHost
    decide
  have hport : IsPort ['8', '1'] := ⟨by decide, by decide, by decide⟩
  refine (acceptedAlike_iff .string standardUriParsingOptions (.inl rfl) .start hhost hport
    (by decide) fun hkind => ContextKind.noConfusion hkind).mpr ?_
  have hends : endsLikeIpv4 standardUriParsingOptions ['h', 't', 't', 'p'] ['a', 'b'] = false := by
    decide
  rw [ReadsAlike, hends]
  exact fun _ _ => ⟨fun hkind => ContextKind.noConfusion hkind, fun hfalse =>
    absurd hfalse Bool.false_ne_true⟩

/-- With a port a number that is no octet is left in an address. -/
theorem not_acceptedAlike :
    ¬ ∀ (kind : ContextKind) (scheme host port : List Char), IsBareHost host → IsPort port →
      portNumber port ≠ knownPort scheme →
      accepted kind.output (parseAuthorityPieces standardUriParsingOptions kind.output true
          (behindScheme kind scheme (host ++ ':' :: (port ++ ['/'])) .start)) =
        accepted kind.output (parseAuthorityPieces standardUriParsingOptions kind.output true
          (behindScheme kind scheme (host ++ ['/']) .start)) := by
  intro h
  have hhost : IsBareHost ['1', '.', '2', '.', '3', '.', '2', '5', '6'] := by
    unfold IsBareHost
    decide
  have hport : IsPort ['8', '1'] := ⟨by decide, by decide, by decide⟩
  have heq := h .string ['h', 't', 't', 'p'] _ _ hhost hport (by decide)
  have hwith : accepted stringOutput (parseAuthorityPieces standardUriParsingOptions stringOutput
      true (behindScheme .string ['h', 't', 't', 'p'] ['1', '.', '2', '.', '3', '.', '2', '5', '6',
        ':', '8', '1', '/'] .start)) = some ['1', '.', '2', '.', '3', '.', '2', '5', '6'] := by
    decide +kernel
  have hwithout : accepted stringOutput (parseAuthorityPieces standardUriParsingOptions
      stringOutput true (behindScheme .string ['h', 't', 't', 'p'] ['1', '.', '2', '.', '3', '.',
        '2', '5', '6', '/'] .start)) = none := by
    decide +kernel
  exact Option.some_ne_none _ (hwith.symm.trans (heq.trans hwithout))

end Ports

end Webpp.Uri
