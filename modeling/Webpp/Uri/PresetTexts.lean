import Webpp.Uri.Growth
import Webpp.Uri.Offsets

/-!
# Escapes under two presets

The strict preset reads an escape without its second digit, which the next round stores. On
texts without tabs, newlines and `\0` that is the only difference between the two readings of
an escape, and the search that follows ends in the same state.
-/

namespace Webpp.Uri

open ComponentEncoder Ctx Loop Webpp.Text

variable {σ : Type} {c : Char} {comp : Components} {pos : List Char} {O : Output σ}

/-- No tab, newline or `\0`. -/
def Untabbed (text : List Char) : Prop := ∀ c ∈ text, isTabOrNewline c = false ∧ c ≠ '\x00'

theorem Untabbed.of_suffix {text text' : List Char} (h : Untabbed text) (hsuffix : text' <:+ text) :
    Untabbed text' :=
  fun c hc => h c (hsuffix.subset hc)

theorem Untabbed.head {text : List Char} (h : Untabbed (c :: text)) :
    isTabOrNewline c = false ∧ c ≠ '\x00' :=
  h c List.mem_cons_self

theorem Untabbed.tail {text : List Char} (h : Untabbed (c :: text)) : Untabbed text :=
  h.of_suffix (List.suffix_cons ..)

/-- Texts are appended one after the other. -/
def Output.Appends (O : Output σ) : Prop :=
  ∀ comp chars chars' out, O.isModifiable = true →
    O.append comp chars' (O.append comp chars out) = O.append comp (chars ++ chars') out

theorem appendLast_appendLast (segments : List (List Char)) (chars chars' : List Char) :
    appendLast (appendLast segments chars) chars' = appendLast segments (chars ++ chars') := by
  cases segments using List.reverseRecOn with
  | nil => rfl
  | append_singleton segments segment => simp [appendLast]

theorem stringOutput_appends : stringOutput.Appends := by
  intro comp chars chars' out _
  simp [stringOutput]

theorem segregatedOutput_appends : segregatedOutput.Appends := by
  intro comp chars chars' out _
  simp only [segregatedOutput]
  cases hvec : comp.isVec with
  | true => simp [appendLast_appendLast]
  | false => simp

theorem ContextKind.appends (kind : ContextKind) : kind.output.Appends := by
  cases kind with
  | string => exact stringOutput_appends
  | segregated => exact segregatedOutput_appends
  | view => exact fun _ _ _ _ hmod => nomatch hmod
  | u32 => exact fun _ _ _ _ hmod => nomatch hmod
  | segregatedView => exact fun _ _ _ _ hmod => nomatch hmod

/-! ## Digits -/

def hexDigitChars : List Char :=
  ['0', '1', '2', '3', '4', '5', '6', '7', '8', '9', 'a', 'b', 'c', 'd', 'e', 'f',
    'A', 'B', 'C', 'D', 'E', 'F']

theorem isHexDigit_bounds (h : isHexDigit c = true) :
    48 ≤ c.toNat ∧ c.toNat ≤ 57 ∨ 97 ≤ c.toNat ∧ c.toNat ≤ 102 ∨
      65 ≤ c.toNat ∧ c.toNat ≤ 70 := by
  rw [isHexDigit, hexDigitSafe] at h
  simp only [Char.le_def, UInt32.le_iff_toNat_le] at h
  split_ifs at h with h₁ h₂ h₃
  · exact .inl h₁
  · exact .inr (.inl h₂)
  · exact .inr (.inr h₃)
  · cases h

theorem mem_hexDigitChars (h : isHexDigit c = true) : c ∈ hexDigitChars := by
  have hbounds := isHexDigit_bounds h
  rw [← Char.ofNat_toNat c]
  generalize c.toNat = n at hbounds
  rcases hbounds with ⟨h₁, h₂⟩ | ⟨h₁, h₂⟩ | ⟨h₁, h₂⟩
  · interval_cases n <;> decide
  · interval_cases n <;> decide
  · interval_cases n <;> decide

/-- A set without digits. -/
theorem not_contains_of_isHexDigit {s : AsciiBitmap}
    (hs : ∀ c ∈ hexDigitChars, s.contains c = false) (h : isHexDigit c = true) :
    s.contains c = false :=
  hs c (mem_hexDigitChars h)

/-! ## Escapes -/

theorem percentEscape_valid (hun : Untabbed pos)
    {r : List Char × List Char × Bool} (h : percentEscape true ('%' :: pos) = .ok r)
    (hvalid : r.2.2 = true) :
    ∃ c d rest, pos = c :: d :: rest ∧ isHexDigit c = true ∧ isHexDigit d = true ∧
      r = (['%', c, d], rest, true) := by
  simp only [percentEscape, if_true, Except.ok.injEq] at h
  subst h
  cases pos with
  | nil => cases hvalid
  | cons c pos =>
      have hc := hun.head.1
      cases hdigit : isHexDigit c with
      | false => simp [percentDigits, hc, hdigit] at hvalid
      | true =>
          cases pos with
          | nil => simp [percentDigits, hc, hdigit] at hvalid
          | cons d rest =>
              have hd := hun.tail.head.1
              cases hdigit' : isHexDigit d with
              | false => simp [percentDigits, hc, hdigit, hd, hdigit'] at hvalid
              | true =>
                  exact ⟨c, d, rest, rfl, hdigit, hdigit', by
                    simp [percentDigits, hc, hdigit, hd, hdigit']⟩

theorem percentEscape_strict {c d : Char} (hc : isHexDigit c = true) (hd : isHexDigit d = true)
    (rest : List Char) :
    percentEscape false ('%' :: c :: d :: rest) = .ok (['%', c], d :: rest, true) := by
  simp [percentEscape, hc, hd, deref_cons, ok_bind]

/-- A digit that is not passed over yet is stored by the search. -/
theorem encodeOrValidate_pending (hO : O.Appends)
    (hmap : O.isModifiable = true → isMap O comp = false)
    {policyChars invalidChars : AsciiBitmap} {d : Char}
    (hpolicy : policyChars.contains d = false) (hinvalid : invalidChars.contains d = false)
    (chars rest : List Char) (e : ComponentEncoder σ) :
    encodeOrValidate O comp policyChars invalidChars
        ((store O comp (chars ++ [d]) e).setPos rest) =
      encodeOrValidate O comp policyChars invalidChars
        ((store O comp chars e).setPos (d :: rest)) := by
  have hnot : ¬invalidChars.contains d = true := by
    rw [hinvalid]
    exact Bool.false_ne_true
  cases hmod : O.isModifiable with
  | true =>
      have hencode : encodeUriComponent policyChars invalidChars (d :: rest) =
          (d :: (encodeUriComponent policyChars invalidChars rest).1,
            (encodeUriComponent policyChars invalidChars rest).2) := by
        rw [encodeUriComponent, if_neg hnot, encodeUriChar, hpolicy]
        rfl
      have happend (run : List Char) :
          O.append comp run (O.append comp (chars ++ [d]) e.ctx.out) =
            O.append comp (d :: run) (O.append comp chars e.ctx.out) := by
        rw [hO comp _ _ _ hmod, hO comp _ _ _ hmod, List.append_assoc, List.singleton_append]
      simp only [encodeOrValidate, store, hmod, hmap hmod, Bool.not_false, Bool.and_self, if_true,
        setPos_pos, hencode]
      simp only [appendTo, setOut, setPos, happend]
  | false =>
      simp only [encodeOrValidate, store, hmod, Bool.false_and, Bool.false_eq_true, if_false,
        setPos_pos, AsciiBitmap.findFirstIn, if_neg hnot]
      simp only [setPos]

/-- An escape that the standard preset reads without a warning, and what the strict preset
makes of it. -/
theorem validatePercentEncode_alike {e : ComponentEncoder σ} (hpos : e.ctx.pos = '%' :: pos)
    (hun : Untabbed pos) {r₁ r₂ : Bool × ComponentEncoder σ}
    (h₁ : validatePercentEncode O comp true e = .ok r₁) (hvalid : r₁.1 = true)
    (h₂ : validatePercentEncode O comp false e = .ok r₂) :
    ∃ c d rest, pos = c :: d :: rest ∧ isHexDigit c = true ∧ isHexDigit d = true ∧
      r₁ = (true, (store O comp ['%', c, d] e).setPos rest) ∧
      r₂ = (true, (store O comp ['%', c] e).setPos (d :: rest)) := by
  rw [validatePercentEncode, hpos] at h₁ h₂
  obtain ⟨r, hescape, h₁⟩ := exists_of_bind_eq_ok h₁
  cases h₁
  obtain ⟨c, d, rest, rfl, hc, hd, rfl⟩ := percentEscape_valid hun hescape hvalid
  rw [percentEscape_strict hc hd, ok_bind] at h₂
  cases h₂
  exact ⟨c, d, rest, rfl, hc, hd, rfl, rfl⟩

theorem validatePercentEncode_standard {e : ComponentEncoder σ} (hpos : e.ctx.pos = '%' :: pos)
    (hun : Untabbed pos) {r₁ r₂ : Bool × ComponentEncoder σ}
    (h₁ : validatePercentEncode O comp true e = .ok r₁)
    (h₂ : validatePercentEncode O comp false e = .ok r₂) (hvalid : r₂.1 = true) : r₁.1 = true := by
  rw [validatePercentEncode, hpos] at h₁ h₂
  rcases pos with _ | ⟨c, pos⟩
  · cases h₂
    cases hvalid
  · cases hc : isHexDigit c with
    | false =>
        simp only [percentEscape, hc, Bool.false_eq_true, if_false, ok_bind] at h₂
        cases h₂
        cases hvalid
    | true =>
        rcases pos with _ | ⟨d, rest⟩
        · simp only [percentEscape, hc, Bool.false_eq_true, if_false, if_true] at h₂
          cases h₂
        · simp only [percentEscape, hc, Bool.false_eq_true, if_false, if_true, deref_cons,
            ok_bind] at h₂
          cases h₂
          replace hvalid : isHexDigit d = true := hvalid
          have hdigits : percentDigits (c :: d :: rest) 0 = ([c, d], rest, true) := by
            simp [percentDigits, hun.head.1, hc, hun.tail.head.1, hvalid]
          simp only [percentEscape, if_true, hdigits, ok_bind] at h₁
          cases h₁
          rfl

end Webpp.Uri
