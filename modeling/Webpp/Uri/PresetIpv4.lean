import Webpp.Uri.Growth
import Webpp.Uri.SafeHost

/-!
# IPv4 hosts under two presets

The standard preset reads octal and hexadecimal octets, the strict one reads all octets as
decimal numbers. An octet in another base than 10 leaves a warning unless it is 0, so that
without one the octets are the same (`parseHostIpv4_alike`).
-/

namespace Webpp.Uri

open ComponentEncoder Loop Webpp.Text

variable {σ : Type}

/-! ## Octets -/

theorem readOctet_ten (o o' : Options) (octet : ℕ) (src : List Char) :
    readOctet o 10 octet src = readOctet o' 10 octet src := by
  induction src generalizing octet with
  | nil => rfl
  | cons c src ih =>
      have hdigit : ∀ o : Options, ¬(o.allowIpv4HexOctets && (10 : ℕ) == 16) = true := by simp
      rw [readOctet, readOctet]
      simp only [if_neg (hdigit _), ih]

theorem le_of_readOctet {o : Options} {base octet n : ℕ} {src src' : List Char} (hbase : 0 < base)
    (h : readOctet o base octet src = some (n, src')) : octet ≤ n := by
  induction src generalizing octet with
  | nil =>
      rw [readOctet] at h
      cases h
      exact Nat.le_refl _
  | cons c src ih =>
      unfold readOctet at h
      extract_lets digit at h
      split at h
      · split at h
        · cases h
          exact Nat.le_refl _
        · cases h
      · refine Nat.le_trans ?_ (ih h)
        exact (Nat.le_mul_of_pos_right octet hbase).trans (Nat.le_add_right _ _)

theorem readOctet_zero {src src' : List Char}
    (h : readOctet standardUriParsingOptions 8 0 src = some (0, src')) :
    readOctet strictUriParsingOptions 10 0 src = some (0, src') := by
  induction src with
  | nil => exact h
  | cons c src ih =>
      have hoctal : ¬(standardUriParsingOptions.allowIpv4HexOctets && (8 : ℕ) == 16) = true := by
        decide
      have hdecimal : ¬(strictUriParsingOptions.allowIpv4HexOctets && (10 : ℕ) == 16) = true := by
        decide
      rw [readOctet] at h ⊢
      simp only [if_neg hoctal, Nat.zero_mul, Nat.zero_add] at h
      simp only [if_neg hdecimal, Nat.zero_mul, Nat.zero_add]
      generalize (if isDigit c = true then digitValue c else invalidNum) = digit at h ⊢
      split at h
      · rename_i hrange
        rw [if_pos hrange]
        exact h
      · rename_i hrange
        rw [if_neg hrange]
        have hzero := Nat.le_zero.mp (le_of_readOctet (by decide) h)
        rw [hzero] at h ⊢
        exact ih h

theorem readOctet_split {c : Char} (hc : c = 'x' ∨ c = 'X') (digits : List Char) :
    readOctet strictUriParsingOptions 10 0 ('0' :: c :: digits) = none := by
  rcases hc with rfl | rfl
  · rfl
  · rfl

/-- The octet at `src`, as a round of `parse_host_ipv4` reads it. -/
def octetAt (o : Options) (src : List Char) : Option (ℕ × List Char) :=
  readOctet o (octetBase o src).1 0 (octetBase o src).2

theorem octetBase_strict (src : List Char) :
    octetBase strictUriParsingOptions src = (10, src) := by
  rw [octetBase.eq_def]
  split
  · rfl
  · rfl

theorem octetAt_alike {src src₁ src₂ : List Char} {n₁ n₂ : ℕ}
    (h₁ : octetAt standardUriParsingOptions src = some (n₁, src₁))
    (h₂ : octetAt strictUriParsingOptions src = some (n₂, src₂))
    (hbase : (octetBase standardUriParsingOptions src).1 = 10 ∨ n₁ = 0) :
    n₁ = n₂ ∧ src₁ = src₂ := by
  rw [octetAt, octetBase_strict] at h₂
  rw [octetAt] at h₁
  rw [octetBase.eq_def] at h₁ hbase
  split at h₁
  · rename_i rest
    have hoctal {digits : List Char} (hzero : n₁ = 0)
        (h₁ : readOctet standardUriParsingOptions 8 0 digits = some (n₁, src₁))
        (h₂ : readOctet strictUriParsingOptions 10 0 ('0' :: digits) = some (n₂, src₂)) :
        n₁ = n₂ ∧ src₁ = src₂ := by
      have hskip : readOctet strictUriParsingOptions 10 0 ('0' :: digits) =
          readOctet strictUriParsingOptions 10 0 digits := rfl
      rw [hzero] at h₁
      rw [hskip, readOctet_zero h₁] at h₂
      cases h₂
      exact ⟨hzero, rfl⟩
    cases rest with
    | nil => exact hoctal (hbase.resolve_left (by decide)) h₁ h₂
    | cons c digits =>
        by_cases hc : c = 'x' ∨ c = 'X'
        · rw [readOctet_split hc] at h₂
          cases h₂
        · simp only [show standardUriParsingOptions.allowIpv4HexOctets = true from rfl,
            show standardUriParsingOptions.allowIpv4OctalOctets = true from rfl, if_true,
            if_neg hc] at h₁ hbase
          exact hoctal (hbase.resolve_left (by decide)) h₁ h₂
  · rw [readOctet_ten _ strictUriParsingOptions, h₂] at h₁
    cases h₁
    exact ⟨rfl, rfl⟩

/-! ## Rounds -/

/-- What a round does behind the octet `octet`. -/
def afterOctet (stored : List ℕ) (octet : ℕ) (src : List Char) (ctx : Ctx σ) :
    Run (Flow (HostIpv4State σ) (Option (HostIpv4State σ) × Ctx σ)) :=
  if src = [] then pure (.done (some ⟨src, stored, octet, ctx⟩, ctx))
  else if src.head? = some '.' then pure (.done (some ⟨'.' :: src, stored, octet, ctx⟩, ctx))
  else if octet > 255 then pure (.done (none, ctx.setError .ipInvalidOctetRange))
  else if stored.length = 4 then .error .writePastOctets
  else pure (.next ⟨src, stored ++ [octet], octet, ctx⟩)

/-- The context behind an octet. -/
def octetCtx (o : Options) (base octet : ℕ) (ctx : Ctx σ) : Ctx σ :=
  if (o.allowIpv4HexOctets || o.allowIpv4OctalOctets) && base != 10 && octet != 0 then
    ctx.setWarning .ipv4NonDecimalOctet
  else ctx

/-- The context is the same, or it has a warning. -/
def Kept (ctx ctx' : Ctx σ) : Prop :=
  ctx' = ctx ∨ ctx'.status.warnings ≠ ∅ ∧ MovedTo ctx.pos ctx ctx'

theorem Kept.moved {ctx ctx' : Ctx σ} (h : Kept ctx ctx') : MovedTo ctx.pos ctx ctx' := by
  rcases h with rfl | h
  · exact .refl _
  · exact h.2

theorem Kept.trans {ctx ctx' ctx'' : Ctx σ} (h : Kept ctx ctx') (h' : Kept ctx' ctx'') :
    Kept ctx ctx'' := by
  rcases h' with rfl | ⟨hwarned, hmoved⟩
  · exact h
  · rw [h.moved.pos] at hmoved
    exact .inr ⟨hwarned, h.moved.trans hmoved⟩

theorem Kept.setWarning (ctx : Ctx σ) (warning : UriWarning) : Kept ctx (ctx.setWarning warning) :=
  .inr ⟨warnings_setWarning_ne ctx warning, (MovedTo.refl ctx).setWarning warning⟩

/-- What a parser of an address leaves. -/
inductive AddressLeft {α : Type} (ctx : Ctx σ) : Option α × Ctx σ → Prop where
  | refused {ctx' : Ctx σ} (h : ctx'.status.hasError = true) : AddressLeft ctx (none, ctx')
  | read {ctx' : Ctx σ} (a : α) (h : Kept ctx ctx') : AddressLeft ctx (some a, ctx')

section Rounds

variable {o : Options} {ctx ctx' : Ctx σ} {s : HostIpv4State σ}

theorem AddressLeft.trans {α : Type} {r : Option α × Ctx σ} (h : Kept ctx ctx')
    (h' : AddressLeft ctx' r) : AddressLeft ctx r := by
  cases h' with
  | refused herror => exact .refused herror
  | read a hkept => exact .read a (h.trans hkept)

theorem Kept.warned (h : Kept ctx ctx') (hwarned : ctx.status.warnings ≠ ∅) :
    ctx'.status.warnings ≠ ∅ := by
  rcases h with rfl | h
  · exact hwarned
  · exact h.1

/-- What a round of `parse_host_ipv4` leads to. -/
abbrev Ipv4Flow (ctx : Ctx σ) :
    Flow (HostIpv4State σ) (Option (HostIpv4State σ) × Ctx σ) → Prop :=
  FlowSat (fun s => Kept ctx s.ctx) (AddressLeft ctx)

theorem afterOctet_left (stored : List ℕ) (octet : ℕ) (src : List Char) (h : Kept ctx ctx') :
    Partly (Ipv4Flow ctx) (afterOctet stored octet src ctx') := by
  rw [afterOctet]
  split
  · exact AddressLeft.read _ h
  · split
    · exact AddressLeft.read _ h
    · split
      · exact AddressLeft.refused rfl
      · split
        · trivial
        · exact h

theorem octetCtx_kept (o : Options) (base octet : ℕ) (ctx : Ctx σ) :
    Kept ctx (octetCtx o base octet ctx) := by
  rw [octetCtx]
  split
  · exact .setWarning ctx _
  · exact .inl rfl

theorem octetCtx_of_decimal {base octet : ℕ} (h : base = 10 ∨ octet = 0) :
    octetCtx o base octet ctx = ctx := by
  rw [octetCtx, if_neg]
  rcases h with hten | hzero
  · simp [hten]
  · simp [hzero]

theorem octetCtx_of_not_decimal {base octet : ℕ} (h : ¬(base = 10 ∨ octet = 0)) :
    octetCtx standardUriParsingOptions base octet ctx = ctx.setWarning .ipv4NonDecimalOctet := by
  rw [not_or] at h
  rw [octetCtx, if_pos]
  simp [h.1, h.2, show standardUriParsingOptions.allowIpv4HexOctets = true from rfl]

theorem hostIpv4Step_refused (hsrc : s.src ≠ []) (h : octetAt o s.src = none) :
    hostIpv4Step o s = .ok (.done (none, s.ctx.setError .ipInvalidCharacter)) := by
  obtain ⟨c, rest, hcons⟩ := List.exists_cons_of_ne_nil hsrc
  rw [octetAt] at h
  rw [hostIpv4Step, show deref s.src = .ok c by rw [hcons]; rfl, ok_bind]
  simp only [h]
  rfl

theorem hostIpv4Step_read {octet : ℕ} {src : List Char} (hsrc : s.src ≠ [])
    (h : octetAt o s.src = some (octet, src)) :
    hostIpv4Step o s =
      afterOctet s.stored octet src (octetCtx o (octetBase o s.src).1 octet s.ctx) := by
  obtain ⟨c, rest, hcons⟩ := List.exists_cons_of_ne_nil hsrc
  rw [octetAt] at h
  rw [hostIpv4Step, show deref s.src = .ok c by rw [hcons]; rfl, ok_bind]
  simp only [h]
  rfl

theorem hostIpv4Step_left (o : Options) (s : HostIpv4State σ) :
    Partly (Ipv4Flow s.ctx) (hostIpv4Step o s) := by
  by_cases hsrc : s.src = []
  · rw [hostIpv4Step, hsrc]
    trivial
  · cases hoctet : octetAt o s.src with
    | none =>
        rw [hostIpv4Step_refused hsrc hoctet]
        exact AddressLeft.refused rfl
    | some r =>
        rw [hostIpv4Step_read hsrc hoctet]
        exact afterOctet_left _ _ _ (octetCtx_kept ..)

theorem hostIpv4Step_alike {f₁ f₂ : Flow (HostIpv4State σ) (Option (HostIpv4State σ) × Ctx σ)}
    (h₁ : hostIpv4Step standardUriParsingOptions s = .ok f₁)
    (h₂ : hostIpv4Step strictUriParsingOptions s = .ok f₂) :
    f₁ = f₂ ∨ (∃ ctx : Ctx σ, ctx.status.warnings ≠ ∅ ∧ Ipv4Flow ctx f₁) ∨
      ∃ ctx : Ctx σ, f₁ = .done (none, ctx) ∨ f₂ = .done (none, ctx) := by
  by_cases hsrc : s.src = []
  · rw [hostIpv4Step, hsrc] at h₁
    cases h₁
  · cases hoctet₁ : octetAt standardUriParsingOptions s.src with
    | none =>
        rw [hostIpv4Step_refused hsrc hoctet₁] at h₁
        cases h₁
        exact .inr (.inr ⟨_, .inl rfl⟩)
    | some r₁ =>
        cases hoctet₂ : octetAt strictUriParsingOptions s.src with
        | none =>
            rw [hostIpv4Step_refused hsrc hoctet₂] at h₂
            cases h₂
            exact .inr (.inr ⟨_, .inr rfl⟩)
        | some r₂ =>
            rw [hostIpv4Step_read hsrc hoctet₁] at h₁
            rw [hostIpv4Step_read hsrc hoctet₂] at h₂
            have hstrict : octetCtx strictUriParsingOptions
                (octetBase strictUriParsingOptions s.src).1 r₂.1 s.ctx = s.ctx := rfl
            by_cases hbase : (octetBase standardUriParsingOptions s.src).1 = 10 ∨ r₁.1 = 0
            · obtain ⟨hnumber, hsrc'⟩ := octetAt_alike hoctet₁ hoctet₂ hbase
              rw [octetCtx_of_decimal hbase, hnumber, hsrc'] at h₁
              rw [hstrict, h₁] at h₂
              exact .inl (Except.ok.inj h₂)
            · rw [octetCtx_of_not_decimal hbase] at h₁
              have hleft := afterOctet_left s.stored r₁.1 r₁.2
                (.inl rfl : Kept (s.ctx.setWarning .ipv4NonDecimalOctet) _)
              rw [h₁] at hleft
              exact .inr (.inl ⟨_, warnings_setWarning_ne s.ctx _, hleft⟩)

theorem hostIpv4_loop_left {n : ℕ} {r : Option (HostIpv4State σ) × Ctx σ} (hs : Kept ctx s.ctx)
    (h : loop (hostIpv4Step o) .diverges n s = .ok r) : AddressLeft ctx r := by
  refine loop_partly (fun s => Kept ctx s.ctx) (AddressLeft ctx) (fun s' hs' => ?_) hs h
  refine (hostIpv4Step_left o s').mono fun flow hflow => ?_
  cases flow with
  | next s'' => exact hs'.trans hflow
  | done r' => exact hflow.trans hs'

theorem hostIpv4_loop_alike {n : ℕ} {r₁ r₂ : Option (HostIpv4State σ) × Ctx σ}
    (h₁ : loop (hostIpv4Step standardUriParsingOptions) .diverges n s = .ok r₁)
    (h₂ : loop (hostIpv4Step strictUriParsingOptions) .diverges n s = .ok r₂) :
    r₁ = r₂ ∨ r₁.2.status.warnings ≠ ∅ ∨ r₁.1 = none ∨ r₂.1 = none := by
  refine loop_lockstep (fun s s' => s = s') (fun r₁ r₂ => r₁ = r₂ ∨ r₁.2.status.warnings ≠ ∅ ∨
    r₁.1 = none ∨ r₂.1 = none) (fun s s' f₁ f₂ hs hf₁ hf₂ => ?_) rfl h₁ h₂
  rw [← hs] at hf₂
  rcases hostIpv4Step_alike hf₁ hf₂ with rfl | ⟨ctx, hwarned, hflow⟩ | ⟨ctx, rfl | rfl⟩
  · cases f₁ with
    | next s'' => exact .inl (.next rfl)
    | done r => exact .inl (.done (.inl rfl))
  · -- the warning stays
    refine .inr (.inl ?_)
    have hstays (r : Option (HostIpv4State σ) × Ctx σ) (hleft : AddressLeft ctx r) :
        r.2.status.warnings ≠ ∅ ∨ r.1 = none := by
      cases hleft with
      | refused herror => exact .inr rfl
      | read a hkept => exact .inl (hkept.warned hwarned)
    cases f₁ with
    | next s'' =>
        intro n r hr r'
        exact .inr ((hstays r (hostIpv4_loop_left hflow hr)).imp_right .inl)
    | done r => exact fun r' => .inr ((hstays r hflow).imp_right .inl)
  · exact .inr (.inl fun r' => .inr (.inr (.inl rfl)))
  · exact .inr (.inr fun r => .inr (.inr (.inr rfl)))

/-! ## The end of an address -/

theorem hostIpv4End_left (o : Options) (s : HostIpv4State σ) (h : Kept ctx ctx') :
    AddressLeft ctx (hostIpv4End o s ctx') := by
  obtain ⟨hdots, hbroken⟩ : ((checkTrailingDots o s.src ctx').1 = true →
      Kept ctx (checkTrailingDots o s.src ctx').2) ∧
      ((checkTrailingDots o s.src ctx').1 = false →
        (checkTrailingDots o s.src ctx').2.status.hasError = true) := by
    rw [checkTrailingDots]
    split
    · split
      · split
        · exact ⟨fun _ => h, fun hfalse => Bool.noConfusion hfalse⟩
        · exact ⟨fun htrue => Bool.noConfusion htrue, fun _ => rfl⟩
      · split
        · exact ⟨fun _ => h.trans (.setWarning ctx' _), fun hfalse => Bool.noConfusion hfalse⟩
        · exact ⟨fun htrue => Bool.noConfusion htrue, fun _ => rfl⟩
    · exact ⟨fun _ => h, fun hfalse => Bool.noConfusion hfalse⟩
  rw [hostIpv4End]
  generalize checkTrailingDots o s.src ctx' = r at hdots hbroken
  simp only
  split
  · rename_i htrue
    split
    · split
      · exact .refused rfl
      · exact .read _ (hdots htrue)
    · split
      · exact .refused rfl
      · split
        · exact .refused rfl
        · exact .read _ (hdots htrue)
  · rename_i hfalse
    exact .refused (hbroken (Bool.eq_false_iff.mpr hfalse))

/-- The octets that are missing are filled with those of the last one, of which nothing may be
left. -/
theorem hostIpv4End_alike (s : HostIpv4State σ) (ctx : Ctx σ)
    {octets₁ octets₂ : List ℕ} {c₁ c₂ : Ctx σ}
    (h₁ : hostIpv4End standardUriParsingOptions s ctx = (some octets₁, c₁))
    (h₂ : hostIpv4End strictUriParsingOptions s ctx = (some octets₂, c₂)) :
    octets₁ = octets₂ ∧ c₁ = c₂ := by
  have hdots : s.src.head? ≠ some '.' := by
    intro hdot
    have hbroken : checkTrailingDots strictUriParsingOptions s.src ctx =
        (false, ctx.setError .ipInvalidCharacter) := by
      rw [checkTrailingDots, if_pos hdot]
      rfl
    rw [hostIpv4End, hbroken] at h₂
    cases h₂
  have hpassed (o : Options) : checkTrailingDots o s.src ctx = (true, ctx) := by
    rw [checkTrailingDots, if_neg hdots]
  rw [hostIpv4End, hpassed] at h₁ h₂
  simp only [if_true, show (standardUriParsingOptions.allowMultipleTrailingEmptyIpv4Octets ||
    standardUriParsingOptions.allowTrailingEmptyIpv4Octet) = true from rfl] at h₁
  simp only [if_true, show (strictUriParsingOptions.allowMultipleTrailingEmptyIpv4Octets ||
    strictUriParsingOptions.allowTrailingEmptyIpv4Octet) = false from rfl, Bool.false_eq_true,
    if_false] at h₂
  split at h₂
  · cases h₂
  · rename_i hlength
    split at h₂
    · cases h₂
    · rename_i hoctet
      rw [of_not_not hlength, of_not_not hoctet] at h₁
      cases h₁
      cases h₂
      exact ⟨List.append_nil _, rfl⟩

/-- What is made of the result of the loop. -/
def ipv4Result (o : Options) (r : Option (HostIpv4State σ) × Ctx σ) : Option (List ℕ) × Ctx σ :=
  r.1.elim (none, r.2) fun s => hostIpv4End o s r.2

theorem parseHostIpv4_eq {host : List Char} (hne : host ≠ []) (hdot : host.head? ≠ some '.') :
    parseHostIpv4 o host ctx =
      (loop (hostIpv4Step o) .diverges (host.length + 1) ⟨host, [], 0, ctx⟩).map
        (ipv4Result o) := by
  rw [parseHostIpv4, if_neg hne, if_neg hdot]
  cases loop (hostIpv4Step o) .diverges (host.length + 1) ⟨host, [], 0, ctx⟩ with
  | error fault => rfl
  | ok r =>
      obtain ⟨result, ctx'⟩ := r
      cases result with
      | none => rfl
      | some s => rfl

theorem ipv4Result_left {r : Option (HostIpv4State σ) × Ctx σ} (h : AddressLeft ctx r) :
    AddressLeft ctx (ipv4Result o r) := by
  cases h with
  | refused herror => exact .refused herror
  | read s hkept => exact hostIpv4End_left o s hkept

theorem parseHostIpv4_left (o : Options) (host : List Char) (ctx : Ctx σ) :
    Partly (AddressLeft ctx) (parseHostIpv4 o host ctx) := by
  by_cases hne : host = []
  · rw [parseHostIpv4, if_pos hne]
    exact AddressLeft.refused rfl
  · by_cases hdot : host.head? = some '.'
    · rw [parseHostIpv4, if_neg hne, if_pos hdot]
      exact hostIpv4End_left o _ (.inl rfl)
    · rw [parseHostIpv4_eq hne hdot]
      cases hloop : loop (hostIpv4Step o) .diverges (host.length + 1) ⟨host, [], 0, ctx⟩ with
      | error fault => trivial
      | ok r => exact ipv4Result_left (hostIpv4_loop_left (.inl rfl) hloop)

/-- The octets that both presets read, without a warning, are the same. -/
theorem parseHostIpv4_alike {host : List Char} {octets₁ octets₂ : List ℕ} {c₁ c₂ : Ctx σ}
    (h₁ : parseHostIpv4 standardUriParsingOptions host ctx = .ok (some octets₁, c₁))
    (h₂ : parseHostIpv4 strictUriParsingOptions host ctx = .ok (some octets₂, c₂)) :
    octets₁ = octets₂ ∧ c₁ = c₂ ∨ c₁.status.warnings ≠ ∅ := by
  by_cases hne : host = []
  · rw [parseHostIpv4, if_pos hne] at h₁
    cases h₁
  · by_cases hdot : host.head? = some '.'
    · rw [parseHostIpv4, if_neg hne, if_pos hdot] at h₁ h₂
      exact .inl (hostIpv4End_alike _ ctx (Except.ok.inj h₁) (Except.ok.inj h₂))
    · rw [parseHostIpv4_eq hne hdot] at h₁ h₂
      cases hr₁ : loop (hostIpv4Step standardUriParsingOptions) .diverges (host.length + 1)
          ⟨host, [], 0, ctx⟩ with
      | error fault =>
          rw [hr₁] at h₁
          cases h₁
      | ok r₁ =>
          cases hr₂ : loop (hostIpv4Step strictUriParsingOptions) .diverges (host.length + 1)
              ⟨host, [], 0, ctx⟩ with
          | error fault =>
              rw [hr₂] at h₂
              cases h₂
          | ok r₂ =>
              rw [hr₁] at h₁
              rw [hr₂] at h₂
              replace h₁ : ipv4Result standardUriParsingOptions r₁ = (some octets₁, c₁) :=
                Except.ok.inj h₁
              replace h₂ : ipv4Result strictUriParsingOptions r₂ = (some octets₂, c₂) :=
                Except.ok.inj h₂
              obtain ⟨result₁, ctx₁⟩ := r₁
              obtain ⟨result₂, ctx₂⟩ := r₂
              cases result₁ with
              | none => cases h₁
              | some s₁ =>
                  cases result₂ with
                  | none => cases h₂
                  | some s₂ =>
                      rcases hostIpv4_loop_alike hr₁ hr₂ with hsame | hwarned | hnone | hnone
                      · cases hsame
                        exact .inl (hostIpv4End_alike s₁ ctx₁ h₁ h₂)
                      · have hleft := hostIpv4End_left standardUriParsingOptions s₁
                          (.inl rfl : Kept ctx₁ ctx₁)
                        rw [show hostIpv4End standardUriParsingOptions s₁ ctx₁ = _ from h₁] at hleft
                        cases hleft with
                        | read a hkept => exact .inr (hkept.warned hwarned)
                      · cases hnone
                      · cases hnone

end Rounds

end Webpp.Uri
