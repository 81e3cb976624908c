import Webpp.Ip.Pton6Accepts

/-!
# `inet_pton6` and its special character

A caller passes the character that ends an address inside a longer text: `/`
before a prefix, `]` after the host of a URI. `inet_pton6` should then accept
exactly the addresses, alone or before that character (`ReadsAddress`). It does,
except on two kinds of text (`Unambiguous`).
-/

namespace Webpp.Ip

/-- The result `r` for the text `s` is `valid` when `s` is an address,
`valid_special` with `src` on the special character when `s` is an address before
that character, and an error otherwise; the bytes are those of the address. -/
structure ReadsAddress (special : Char) (s : List Char) (r : Pton6) : Prop where
  whole : r.status = .valid ↔ ∃ e bs, Address e s bs
  before : ∀ t, r.status = .validSpecial ∧ r.src = special :: t ↔
    ∃ e a bs, Address e a bs ∧ s = a ++ special :: t
  error : (¬ ∃ e bs, Address e s bs) →
    (¬ ∃ e a bs t, Address e a bs ∧ s = a ++ special :: t) → r.status.isValid = false
  bytes : r.status.isValid = true → ∃ e a rest, Address e a r.bytes ∧ s = a ++ rest ∧
    (rest = [] ∨ ∃ t, rest = special :: t)

/-- No colon stands between an address that ends in a group and the special
character, and no address that ends in a quad stands before a special character
other than `/`, or before a `/` that is not the special character. -/
def Unambiguous (special : Char) (s : List Char) : Prop :=
  (¬ ∃ a bs t, Address .group a bs ∧ s = a ++ ':' :: special :: t) ∧
    (special = '/' ∨ ¬ ∃ a bs t, Address .quad a bs ∧
      (s = a ++ special :: t ∨ s = a ++ '/' :: t))

theorem Groups.ne_gap {t : List Char} {bs : List UInt8} (h : Groups .gap t bs) : False := by
  generalize he : Ending.gap = e at h
  induction h with
  | group _ => exact absurd he (by decide)
  | quad _ => exact absurd he (by decide)
  | cons _ _ ih => exact ih he

theorem Address.exists_of_gap {t : List Char} {bs : List UInt8} (h : Address .gap t bs) :
    ∃ l, t = l ++ [':', ':'] := by
  cases h with
  | full h _ => exact h.ne_gap.elim
  | gap _ _ hr _ =>
      cases hr with
      | nil => exact ⟨_, rfl⟩
      | groups h => exact h.ne_gap.elim

theorem Address.not_append_colon {a : List Char} {bs : List UInt8} (h : Address .group a bs)
    {e : Ending} {bs' : List UInt8} : ¬ Address e (a ++ [':']) bs' := by
  intro h'
  have hgap : e = .gap := h'.endsAs.colon.mp (by simp)
  subst hgap
  obtain ⟨l, hl⟩ := h'.exists_of_gap
  have ha : a = l ++ [':'] := by
    have hcut : a ++ [':'] = (l ++ [':']) ++ [':'] := by simpa using hl
    exact List.append_cancel_right hcut
  have hgroup : Ending.group = .gap := h.endsAs.colon.mp (by simp [ha])
  exact absurd hgroup (by decide)

section

variable {special : Char} (hspecial : ¬ IsAddressChar special) {s : List Char}
  {bytes : List UInt8} (hbytes : bytes.length = 16)
include hspecial hbytes

theorem unambiguous_of_readsAddress
    (h : ReadsAddress special s (inetPton6 s bytes special)) : Unambiguous special s := by
  constructor
  · rintro ⟨a, bs, t, ha, rfl⟩
    have hres := inetPton6_of_address hspecial ha hbytes (.colon t)
    obtain ⟨e, a', bs', ha', hs⟩ := (h.before t).mp (by rw [hres]; exact ⟨rfl, rfl⟩)
    have hcut : a' = a ++ [':'] := by
      have hs' : a' ++ special :: t = (a ++ [':']) ++ special :: t := by simp [hs]
      exact List.append_cancel_right hs'
    exact ha.not_append_colon (hcut ▸ ha')
  · by_cases hslash : special = '/'
    · exact Or.inl hslash
    refine Or.inr ?_
    rintro ⟨a, bs, t, ha, rfl | rfl⟩
    · have hok := (h.before t).mpr ⟨_, a, bs, ha, rfl⟩
      obtain ⟨e, a', rest, hs, ha', hstop⟩ := address_of_inetPton6 hspecial hbytes
        (show (inetPton6 (a ++ special :: t) bytes special).status.isValid = true by
          rw [hok.1]; rfl)
      rw [hok.1, hok.2] at hstop
      cases hstop with
      | special _ _ hquad =>
          have hcut := List.append_cancel_right hs
          subst hcut
          exact hslash (hquad (ha'.endsAs.unique ha.endsAs))
      | colon _ =>
          have hs' : a ++ special :: t = (a' ++ [':']) ++ special :: t := by simp [hs]
          have hcut := List.append_cancel_right hs'
          have hquad : Ending.quad = .gap := ha.endsAs.colon.mp (by simp [hcut])
          exact absurd hquad (by decide)
    · have hres := inetPton6_of_address hspecial ha hbytes (.slash t hslash)
      obtain ⟨e, bs', hs⟩ := h.whole.mp (by rw [hres])
      have hchar : IsAddressChar '/' := hs.isAddressChar (by simp)
      rcases hchar with hchar | hchar | hchar
      · exact absurd hchar (by decide)
      · exact absurd hchar (by decide)
      · exact absurd hchar (by decide)

theorem stops_of_unambiguous (hun : Unambiguous special s)
    (hvalid : (inetPton6 s bytes special).status.isValid = true) :
    ∃ e a, Address e a (inetPton6 s bytes special).bytes ∧
      ((a = s ∧ (inetPton6 s bytes special).status = .valid) ∨
        ∃ t, s = a ++ special :: t ∧ (inetPton6 s bytes special).status = .validSpecial ∧
          (inetPton6 s bytes special).src = special :: t) := by
  obtain ⟨e, a, rest, hs, ha, hstop⟩ := address_of_inetPton6 hspecial hbytes hvalid
  refine ⟨e, a, ha, ?_⟩
  generalize hst : (inetPton6 s bytes special).status = st at hstop
  generalize hsrc : (inetPton6 s bytes special).src = src at hstop
  generalize (inetPton6 s bytes special).bytes = bs at ha
  cases hstop with
  | finish => exact Or.inl ⟨by simpa using hs.symm, rfl⟩
  | special _ t _ => exact Or.inr ⟨t, hs, rfl, rfl⟩
  | colon t => exact absurd ⟨a, bs, t, ha, hs⟩ hun.1
  | slash t hslash => exact absurd ⟨a, bs, t, ha, Or.inr hs⟩ (hun.2.resolve_left hslash)

theorem readsAddress_of_unambiguous (hun : Unambiguous special s) :
    ReadsAddress special s (inetPton6 s bytes special) := by
  have hstops := stops_of_unambiguous hspecial hbytes hun
  constructor
  · constructor
    · intro hst
      obtain ⟨e, a, ha, ⟨hs, -⟩ | ⟨t, -, hst', -⟩⟩ := hstops (by rw [hst]; rfl)
      · exact ⟨e, _, hs ▸ ha⟩
      · rw [hst'] at hst
        exact absurd hst (by decide)
    · rintro ⟨e, bs, ha⟩
      have hres := inetPton6_of_address hspecial ha hbytes (.finish e)
      rw [List.append_nil] at hres
      rw [hres]
  · intro t
    constructor
    · rintro ⟨hst, hsrc⟩
      obtain ⟨e, a, ha, ⟨-, hst'⟩ | ⟨t', hs, -, hsrc'⟩⟩ := hstops (by rw [hst]; rfl)
      · rw [hst'] at hst
        exact absurd hst (by decide)
      · rw [hsrc] at hsrc'
        exact ⟨e, a, _, ha, by rw [hs, hsrc']⟩
    · rintro ⟨e, a, bs, ha, rfl⟩
      have hquad : e = .quad → special = '/' := by
        rintro rfl
        by_contra hslash
        exact hun.2.resolve_left hslash ⟨a, bs, t, ha, Or.inl rfl⟩
      rw [inetPton6_of_address hspecial ha hbytes (.special e t hquad)]
      exact ⟨rfl, rfl⟩
  · intro hno hno'
    rw [← Bool.not_eq_true]
    intro hvalid
    obtain ⟨e, a, ha, ⟨hs, -⟩ | ⟨t, hs, -⟩⟩ := hstops hvalid
    · exact hno ⟨e, _, hs ▸ ha⟩
    · exact hno' ⟨e, a, _, t, ha, hs⟩
  · intro hvalid
    obtain ⟨e, a, ha, ⟨hs, -⟩ | ⟨t, hs, -⟩⟩ := hstops hvalid
    · exact ⟨e, a, [], ha, by simpa using hs.symm, Or.inl rfl⟩
    · exact ⟨e, a, _, ha, hs, Or.inr ⟨t, rfl⟩⟩

end

/-- `inet_pton6` reads a text as documented exactly when the text is unambiguous. -/
theorem inetPton6_readsAddress_iff {special : Char} (hspecial : ¬ IsAddressChar special)
    (s : List Char) {bytes : List UInt8} (hbytes : bytes.length = 16) :
    ReadsAddress special s (inetPton6 s bytes special) ↔ Unambiguous special s := by
  constructor
  · exact unambiguous_of_readsAddress hspecial hbytes
  · exact readsAddress_of_unambiguous hspecial hbytes

theorem not_isAddressChar_bracket : ¬ IsAddressChar ']' := by
  rintro (h | h | h)
  · exact absurd h (by decide)
  · exact absurd h (by decide)
  · exact absurd h (by decide)

theorem address_one : Address .group "::1".toList [0, 0, 0, 0, 0, 0, 0, 0, 0, 0, 0, 0, 0, 0, 0, 1] :=
  .gap .nil (by decide) (.groups (.group ⟨by decide, by decide, by decide⟩)) (by decide)

/-- The loopback address before a bracket, in a zeroed buffer. -/
theorem inetPton6_readsAddress_loopback :
    ReadsAddress ']' "::1]".toList
        (inetPton6 "::1]".toList (List.replicate 16 0) ']') ↔
      Unambiguous ']' "::1]".toList :=
  inetPton6_readsAddress_iff not_isAddressChar_bracket _ (List.length_replicate)

/-- In `::1:]` the colon before the bracket is accepted. -/
theorem inetPton6_not_readsAddress :
    ¬ ∀ (special : Char) (s : List Char) (bytes : List UInt8), ¬ IsAddressChar special →
      bytes.length = 16 → ReadsAddress special s (inetPton6 s bytes special) := by
  intro h
  have hun := unambiguous_of_readsAddress not_isAddressChar_bracket List.length_replicate
    (h ']' "::1:]".toList (List.replicate 16 0) not_isAddressChar_bracket List.length_replicate)
  exact hun.1 ⟨_, _, [], address_one, rfl⟩

end Webpp.Ip
