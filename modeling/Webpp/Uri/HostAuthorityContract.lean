import Webpp.Uri.HostAuthorityForms

/-!
# Which texts `host_authority` reads as it should

The forms are reported but for a domain name with a port (`reports_of_form`), and what is
accepted has a form or is one of the misread texts (`form_or_misread`).
-/

namespace Webpp.Uri

open Ip Text

namespace HostAuthority

variable {bin : Vector UInt8 4} {d : List Char} {q : List UInt8} {p : List Char} {t : List Char}
  {c : Char}

/-! ## Separators -/

theorem not_isDomainChar_colon : ¬IsDomainChar ':' := by
  rintro (h | h | h) <;> exact absurd h (by decide)

theorem not_isDomainChar_bracket : ¬IsDomainChar '[' := by
  rintro (h | h | h) <;> exact absurd h (by decide)

theorem append_cons_inj {x : Char} {a b p q : List Char} (ha : x ∉ a) (hb : x ∉ b)
    (h : a ++ x :: p = b ++ x :: q) : a = b ∧ p = q := by
  induction a generalizing b with
  | nil =>
      cases b with
      | nil => exact ⟨rfl, (List.cons.inj h).2⟩
      | cons c b => exact absurd ((List.cons.inj h).1 ▸ List.mem_cons_self) hb
  | cons c a ih =>
      cases b with
      | nil => exact absurd ((List.cons.inj h).1 ▸ List.mem_cons_self) ha
      | cons d b =>
          obtain ⟨rfl, htail⟩ := List.cons.inj h
          have hrest := ih (fun hx => ha (List.mem_cons_of_mem _ hx))
            (fun hx => hb (List.mem_cons_of_mem _ hx)) htail
          exact ⟨by rw [hrest.1], hrest.2⟩

theorem colon_not_mem_dottedQuad (hq : q.length = 4) : ':' ∉ dottedQuad q :=
  not_mem_dottedQuad hq (by decide) (by decide)

theorem DomainText.colon_not_mem (hd : DomainText d) : ':' ∉ d :=
  fun h => not_isDomainChar_colon (Domain.chars hd.valid _ h)

theorem DomainText.exists_cons (hd : DomainText d) :
    ∃ c s, d = c :: s ∧ IsDomainChar c := by
  cases hcons : d with
  | nil => exact absurd hcons (Domain.ne_nil hd.valid)
  | cons c s => exact ⟨c, s, rfl, Domain.chars hd.valid c (by rw [hcons]; exact List.mem_cons_self)⟩

theorem IsDomainChar.ne_bracket (h : IsDomainChar c) : c ≠ '[' :=
  fun hc => not_isDomainChar_bracket (hc ▸ h)

theorem IsDomainChar.ne_colon (h : IsDomainChar c) : c ≠ ':' :=
  fun hc => not_isDomainChar_colon (hc ▸ h)

theorem PortText.bracket_not_mem {v : ℕ} (hp : PortText p v) : ']' ∉ ':' :: p := by
  intro h
  rcases List.mem_cons.1 h with h | h
  · exact absurd h (by decide)
  · exact absurd (hp.digits _ h) (by decide)

/-! ## Domain names -/

theorem DomainText.ne_ipv4 (hd : DomainText d)
    (hq : q.length = 4) : d ≠ dottedQuad q ∧ ∀ p, d ≠ dottedQuad q ++ ':' :: p := by
  constructor
  · exact fun h => hd.not_ipv4 ⟨q, hq, h⟩
  · intro p h
    exact hd.colon_not_mem (by rw [h]; simp)

theorem DomainText.port_ne_ipv4 (hd : DomainText d) (p : List Char) (hq : q.length = 4) :
    d ++ ':' :: p ≠ dottedQuad q ∧ ∀ r, d ++ ':' :: p ≠ dottedQuad q ++ ':' :: r := by
  constructor
  · intro h
    exact colon_not_mem_dottedQuad hq (by rw [← h]; simp)
  · intro r h
    have heq := append_cons_inj hd.colon_not_mem (colon_not_mem_dottedQuad hq) h
    exact hd.not_ipv4 ⟨q, hq, heq.1⟩

theorem parseDomain_valid (h : HostAuthority) (ht : (Domain.ofText t).isValid = true) :
    h.parseDomain t = { h with endpoint := .domain (Domain.ofText t), status := .valid } := by
  rw [Domain.isValid, Domain.ofText] at ht
  dsimp only at ht
  rw [parseDomain]
  cases hs : parseDomainName t
  case valid => rfl
  case validPunycode => rfl
  all_goals
    rw [hs] at ht
    exact absurd ht (by decide)

theorem isValid_parseDomain {s : List Char} (h : (parseDomain start (c :: s)).isValid = true) :
    (Domain.ofText (c :: s)).isValid = true ∨
      (parseDomainName (c :: s) = .invalidCharacter ∧ c = ':' ∧
        ∃ v, ReadsNumber maxPortNumber s v) := by
  rw [parseDomain] at h
  split at h
  · rename_i hs
    exact .inl (by rw [Domain.isValid, Domain.ofText, hs]; rfl)
  · rename_i hs
    exact .inl (by rw [Domain.isValid, Domain.ofText, hs]; rfl)
  · rename_i hs
    split at h
    · obtain ⟨hc, hv⟩ := reads_of_parsePort h
      exact .inr ⟨hs, hc, hv⟩
    · exact absurd h (by decide)
  · exact absurd h (by decide)

theorem ofText_domainText (hd : DomainText d) :
    ofText bin d = { start with endpoint := .domain (Domain.ofText d), status := .valid } := by
  obtain ⟨c, s, rfl, hc⟩ := hd.exists_cons
  rw [ofText_domain (IsDomainChar.ne_bracket hc) fun q hq => hd.ne_ipv4 hq,
    parseDomain_valid _ hd.valid]

/-- A domain name with something behind a colon is not accepted: it is the first character
that is compared with the colon. -/
theorem ofText_domainPort (hd : DomainText d) (p : List Char) :
    (ofText bin (d ++ ':' :: p)).isValid = false := by
  obtain ⟨c, s, hcons, hc⟩ := hd.exists_cons
  have hno : ∀ q : List UInt8, q.length = 4 → d ++ ':' :: p ≠ dottedQuad q ∧
      ∀ r, d ++ ':' :: p ≠ dottedQuad q ++ ':' :: r := fun q hq => hd.port_ne_ipv4 p hq
  rw [hcons, List.cons_append] at hno ⊢
  rw [ofText_domain (IsDomainChar.ne_bracket hc) hno]
  by_contra h
  rcases isValid_parseDomain (Bool.of_not_eq_false h) with hvalid | ⟨_, hcolon, _⟩
  · have hmem : ':' ∈ c :: (s ++ ':' :: p) := by simp
    exact not_isDomainChar_colon (Domain.chars hvalid _ hmem)
  · exact IsDomainChar.ne_colon hc hcolon

/-- A port without a host is accepted. -/
theorem ofText_noHost {v : ℕ} (hlen : (':' :: p).length ≤ domainNameThreshold)
    (hp : ReadsNumber maxPortNumber p v) : (ofText bin (':' :: p)).isValid = true := by
  have hno : ∀ q : List UInt8, q.length = 4 →
      ':' :: p ≠ dottedQuad q ∧ ∀ r, ':' :: p ≠ dottedQuad q ++ ':' :: r := by
    intro q hq
    obtain ⟨c, s, hcons, hc⟩ := exists_dottedQuad_cons hq
    rw [hcons]
    have hne : ∀ u, ':' :: p ≠ c :: u := by
      intro u h
      rw [← (List.cons.inj h).1] at hc
      exact absurd hc (by decide)
    exact ⟨hne s, fun r => hne (s ++ ':' :: r)⟩
  have hname : parseDomainName (':' :: p) = .invalidCharacter := by
    rw [parseDomainName_first not_isDomainChar_colon, if_neg (Nat.not_lt.2 hlen)]
  rw [ofText_domain (by decide) hno, parseDomain, hname]
  dsimp only
  rw [if_pos (by rfl), parsePort_of_reads _ hp]
  rfl

/-! ## What is accepted -/

theorem reports_of_form {e : Endpoint} {port : Option ℕ} (h : HostForm t e port)
    (hport : ∀ d p v, DomainText d → PortText p v → t ≠ d ++ ':' :: p) :
    (ofText bin t).Reports e port := by
  cases h with
  | domain hd =>
      rw [ofText_domainText hd]
      exact ⟨rfl, rfl, rfl, fun v hv => nomatch hv⟩
  | domainPort ht hd hp => exact absurd ht (hport _ _ _ hd hp)
  | ipv4 hq ht =>
      rw [ht, ofText_ipv4 hq]
      exact ⟨rfl, rfl, rfl, fun v hv => nomatch hv⟩
  | ipv4Port hq ht hp =>
      rw [ht, ofText_ipv4_port hq]
      exact reports_parsePort _ hp
  | ipv6 ha ht =>
      rw [ht, ofText_bracket (List.not_mem_nil), ipv6_ofText ha]
      exact ⟨rfl, rfl, rfl, fun v hv => nomatch hv⟩
  | ipv6Port ha ht hp =>
      rw [ht, ofText_bracket hp.bracket_not_mem, ipv6_ofText ha]
      exact reports_parsePort _ hp

theorem form_or_misread_ipv4 {t p : List Char} (hq : q.length = 4)
    (ht : t = dottedQuad q ++ ':' :: p) (h : (ofText bin t).isValid = true) :
    (∃ e port, HostForm t e port) ∨ Misread t := by
  rw [ht, ofText_ipv4_port hq] at h
  obtain ⟨_, v, hv⟩ := reads_of_parsePort h
  by_cases hp : ∃ w, PortText p w
  · obtain ⟨w, hw⟩ := hp
    exact .inl ⟨_, _, .ipv4Port hq ht hw⟩
  · exact .inr (.ipv4Junk hq ht hv fun w hw => hp ⟨w, hw⟩)

theorem form_or_misread_bracket {t x r : List Char} (ht : t = '[' :: (x ++ ']' :: r))
    (hr : ']' ∉ r) (h : (ofText bin t).isValid = true) :
    (∃ e port, HostForm t e port) ∨ Misread t := by
  rw [ht, ofText_bracket hr] at h
  have hport : r = [] ∨ ∃ p v, r = ':' :: p ∧ ReadsNumber maxPortNumber p v := by
    cases r with
    | nil => exact .inl rfl
    | cons c p =>
        obtain ⟨rfl, v, hv⟩ := reads_of_parsePort h
        exact .inr ⟨p, v, rfl, hv⟩
  by_cases hgood : (∃ e bs, Address e x bs) ∧ (r = [] ∨ ∃ p v, r = ':' :: p ∧ PortText p v)
  · obtain ⟨⟨e, bs, ha⟩, hnil | ⟨p, v, hcons, hp⟩⟩ := hgood
    · exact .inl ⟨_, _, .ipv6 ha (by rw [ht, hnil])⟩
    · exact .inl ⟨_, _, .ipv6Port ha (by rw [ht, hcons]) hp⟩
  · exact .inr (.bracket ht hr hport hgood)

theorem form_or_misread (h : (ofText bin t).isValid = true) :
    (∃ e port, HostForm t e port) ∨ Misread t := by
  cases t with
  | nil => exact absurd h (by simp [ofText, start, isValid])
  | cons c s =>
      by_cases hbracket : c = '['
      · subst hbracket
        cases hsplit : splitBracket s with
        | none =>
            rw [ofText, hsplit] at h
            exact absurd h (by decide)
        | some xr =>
            obtain ⟨htext, hr⟩ := exists_of_splitBracket hsplit
            exact form_or_misread_bracket (by rw [htext]) hr h
      · by_cases hquad : ∃ q : List UInt8, q.length = 4 ∧
            (c :: s = dottedQuad q ∨ ∃ p, c :: s = dottedQuad q ++ ':' :: p)
        · obtain ⟨q, hq, ht | ⟨p, ht⟩⟩ := hquad
          · exact .inl ⟨_, _, .ipv4 hq ht⟩
          · exact form_or_misread_ipv4 hq ht h
        · rw [ofText_domain hbracket fun q hq => ⟨fun ht => hquad ⟨q, hq, .inl ht⟩,
            fun p ht => hquad ⟨q, hq, .inr ⟨p, ht⟩⟩⟩] at h
          rcases isValid_parseDomain h with hvalid | ⟨hname, rfl, v, hv⟩
          · have hno : ¬IsIpv4 (c :: s) := by
              rintro ⟨q, hq, ht⟩
              exact hquad ⟨q, hq, .inl ht⟩
            exact .inl ⟨_, _, .domain ⟨hvalid, hno⟩⟩
          · refine .inr (.noHost rfl ?_ hv)
            by_contra hlen
            rw [parseDomainName_first not_isDomainChar_colon, if_pos (Nat.not_le.1 hlen)] at hname
            cases hname

/-! ## What is misread -/

theorem not_domain_of_head (hc : ¬IsDomainChar c) (hdigit : isDigit c = false) {s : List Char} :
    ¬DomainText (c :: s) ∧ (∀ d p, DomainText d → c :: s ≠ d ++ ':' :: p) ∧
      ∀ q : List UInt8, q.length = 4 → ∀ p, c :: s ≠ dottedQuad q ++ p := by
  refine ⟨fun hd => hc (Domain.chars hd.valid c List.mem_cons_self), fun d p hd h => ?_,
    fun q hq p h => ?_⟩
  · obtain ⟨c', s', rfl, hc'⟩ := hd.exists_cons
    exact hc ((List.cons.inj h).1 ▸ hc')
  · obtain ⟨c', s', hcons, hc'⟩ := exists_dottedQuad_cons hq
    rw [hcons] at h
    rw [← (List.cons.inj h).1, hdigit] at hc'
    cases hc'

/-- A port without a host has no form. -/
theorem not_form_noHost (e : Endpoint) (port : Option ℕ) :
    ¬HostForm (':' :: p) e port := by
  obtain ⟨hdomain, hdomainPort, hquad⟩ :=
    not_domain_of_head not_isDomainChar_colon (by decide) (s := p)
  intro h
  cases h with
  | domain hd => exact hdomain hd
  | domainPort ht hd _ => exact hdomainPort _ _ hd ht
  | ipv4 hq ht => exact hquad _ hq [] (by rw [ht, List.append_nil])
  | ipv4Port hq ht _ => exact hquad _ hq _ ht
  | ipv6 _ ht => exact absurd (List.cons.inj ht).1 (by decide)
  | ipv6Port _ ht _ => exact absurd (List.cons.inj ht).1 (by decide)

theorem bracket_inj {x y r s : List Char} (hr : ']' ∉ r) (hs : ']' ∉ s)
    (h : '[' :: (x ++ ']' :: r) = '[' :: (y ++ ']' :: s)) : x = y ∧ r = s := by
  have hsplit := splitBracket_append x hr
  rw [(List.cons.inj h).2, splitBracket_append y hs] at hsplit
  have heq := Prod.mk.inj (Option.some.inj hsplit)
  exact ⟨heq.1.symm, heq.2.symm⟩

theorem not_form_bracket {x r : List Char} (hr : ']' ∉ r)
    (hbad : ¬((∃ e bs, Address e x bs) ∧ (r = [] ∨ ∃ p v, r = ':' :: p ∧ PortText p v)))
    (e : Endpoint) (port : Option ℕ) : ¬HostForm ('[' :: (x ++ ']' :: r)) e port := by
  obtain ⟨hdomain, hdomainPort, hquad⟩ :=
    not_domain_of_head not_isDomainChar_bracket (by decide) (s := x ++ ']' :: r)
  intro h
  cases h with
  | domain hd => exact hdomain hd
  | domainPort ht hd _ => exact hdomainPort _ _ hd ht
  | ipv4 hq ht => exact hquad _ hq [] (by rw [ht, List.append_nil])
  | ipv4Port hq ht _ => exact hquad _ hq _ ht
  | ipv6 ha ht =>
      obtain ⟨rfl, hnil⟩ := bracket_inj hr List.not_mem_nil ht
      exact hbad ⟨⟨_, _, ha⟩, .inl hnil⟩
  | ipv6Port ha ht hp =>
      obtain ⟨rfl, hcons⟩ := bracket_inj hr hp.bracket_not_mem ht
      exact hbad ⟨⟨_, _, ha⟩, .inr ⟨_, _, hcons, hp⟩⟩

theorem not_form_ipv4Junk (hq : q.length = 4)
    (hbad : ∀ v, ¬PortText p v) (e : Endpoint) (port : Option ℕ) :
    ¬HostForm (dottedQuad q ++ ':' :: p) e port := by
  obtain ⟨c, s, hcons, hc⟩ := exists_dottedQuad_cons hq
  have hbracket : ∀ u, dottedQuad q ++ ':' :: p ≠ '[' :: u := by
    intro u h
    rw [hcons] at h
    rw [(List.cons.inj h).1] at hc
    exact absurd hc (by decide)
  intro h
  cases h with
  | domain hd => exact (hd.ne_ipv4 hq).2 p rfl
  | domainPort ht hd _ => exact (hd.port_ne_ipv4 _ hq).2 p ht.symm
  | ipv4 hq' ht =>
      exact colon_not_mem_dottedQuad hq' (by rw [← ht]; simp)
  | ipv4Port hq' ht hp =>
      have heq := append_cons_inj (colon_not_mem_dottedQuad hq) (colon_not_mem_dottedQuad hq') ht
      exact hbad _ (heq.2 ▸ hp)
  | ipv6 _ ht => exact hbracket _ ht
  | ipv6Port _ ht _ => exact hbracket _ ht

theorem Misread.rejected_or_accepted (h : Misread t) (bin : Vector UInt8 4) :
    (∃ e port, HostForm t e port) ∧ (ofText bin t).isValid = false ∨
      (∀ e port, ¬HostForm t e port) ∧ (ofText bin t).isValid = true := by
  cases h with
  | domainPort ht hd hp =>
      refine .inl ⟨⟨_, _, .domainPort ht hd hp⟩, ?_⟩
      rw [ht]
      exact ofText_domainPort hd _
  | noHost ht hlen hp =>
      subst ht
      exact .inr ⟨not_form_noHost, ofText_noHost hlen hp⟩
  | bracket ht hr hport hbad =>
      subst ht
      refine .inr ⟨not_form_bracket hr hbad, ?_⟩
      rw [ofText_bracket hr]
      rcases hport with hnil | ⟨p, v, hcons, hp⟩
      · rw [hnil]
        rfl
      · rw [hcons, parsePort_of_reads _ hp]
        rfl
  | ipv4Junk hq ht hp hbad =>
      subst ht
      refine .inr ⟨not_form_ipv4Junk hq hbad, ?_⟩
      rw [ofText_ipv4_port hq, parsePort_of_reads _ hp]
      rfl

/-- The forms are reported, and nothing else is accepted, unless the text is misread. -/
theorem contract_iff (bin : Vector UInt8 4) (t : List Char) :
    Contract t (ofText bin t) ↔ ¬Misread t := by
  constructor
  · rintro ⟨hforms, hothers⟩ hmisread
    rcases hmisread.rejected_or_accepted bin with ⟨⟨e, port, hform⟩, hinvalid⟩ | ⟨hno, hvalid⟩
    · rw [(hforms e port hform).valid] at hinvalid
      cases hinvalid
    · rw [hothers hno] at hvalid
      cases hvalid
  · intro hread
    constructor
    · intro e port hform
      exact reports_of_form hform fun d p v hd hp ht => hread (.domainPort ht hd hp)
    · intro hno
      by_contra hvalid
      rcases form_or_misread (Bool.of_not_eq_false hvalid) with ⟨e, port, hform⟩ | hmisread
      · exact hno e port hform
      · exact hread hmisread

/-- A domain name with a port, `a:80`, is not accepted. -/
theorem not_contract_domain_port :
    ¬Contract ['a', ':', '8', '0'] (ofText (Vector.replicate 4 0) ['a', ':', '8', '0']) := by
  intro h
  have hnot : ¬IsIpv4 ['a'] := by
    rintro ⟨q, hq, ht⟩
    obtain ⟨c, s, hcons, hc⟩ := exists_dottedQuad_cons hq
    rw [hcons] at ht
    rw [← (List.cons.inj ht).1] at hc
    exact absurd hc (by decide)
  have hform : HostForm ['a', ':', '8', '0'] (.domain (Domain.ofText ['a'])) (some 80) :=
    .domainPort (d := ['a']) (p := ['8', '0']) rfl ⟨by decide, hnot⟩
      ⟨by decide, by decide, by decide, by decide⟩
  exact absurd (h.1 _ _ hform).valid (by decide)

end HostAuthority

end Webpp.Uri
