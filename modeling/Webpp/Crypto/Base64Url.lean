import Webpp.Foundation.Base64
import Mathlib.Data.List.DropRight

/-!
# Base64 for URLs

`base64::url_encode` encodes in base64 and replaces the two characters that are no characters of a
URL; `base64::url_decode` takes that back and adds the padding that was left out. The policies say
whether there is padding.
-/

namespace Webpp.Crypto

open Base64

inductive UrlEncodePolicy where
  | includePadding
  | omitPadding
  deriving DecidableEq

inductive UrlDecodePolicy where
  | requirePadding
  | ignorePadding
  | disallowPadding
  deriving DecidableEq

def paddingChar : Char := '='

def base64Chars : List Char := ['+', '/']

def base64UrlSafeChars : List Char := ['-', '_']

/-- The `replace` calls of `url_encode`. -/
def toUrlSafe (c : Char) : Char := if c = '+' then '-' else if c = '/' then '_' else c

/-- The `replace` calls of `url_decode`. -/
def ofUrlSafe (c : Char) : Char := if c = '-' then '+' else if c = '_' then '/' else c

def urlEncode (policy : UrlEncodePolicy) (input : List Char) : List Char :=
  let output := (encode input).map toUrlSafe
  match policy with
  | .includePadding => output
  | .omitPadding =>
      let kept := output.rdropWhile (· = paddingChar)
      if kept = [] then output else kept

/-- The text with as much padding as `resize` adds. -/
def resizePadded (input : List Char) : List Char :=
  if 0 < input.length % 4 then input ++ List.replicate (4 - input.length % 4) paddingChar else input

/-- Whether `url_decode` goes on with the text under the policy. -/
def UrlDecodePolicy.admits : UrlDecodePolicy → List Char → Bool
  | requirePadding, input => input.length % 4 == 0
  | ignorePadding, _ => true
  | disallowPadding, input => !input.contains paddingChar

def urlDecode (policy : UrlDecodePolicy) (input : List Char) : Option (List Char) :=
  if input.any base64Chars.contains then none
  else if !policy.admits input then none
  else
    let needsReplacement := input.any base64UrlSafeChars.contains
    if 0 < input.length % 4 ∨ needsReplacement then
      decode (resizePadded (input.map ofUrlSafe))
    else decode input

/-! ## Replacing -/

section Replacing

variable {c : Char} {input : List Char} {policy : UrlDecodePolicy}

theorem ofUrlSafe_toUrlSafe (h : c ≠ '-' ∧ c ≠ '_') : ofUrlSafe (toUrlSafe c) = c := by
  rw [toUrlSafe]
  split_ifs with hplus hslash
  · rw [hplus]
    rfl
  · rw [hslash]
    rfl
  · rw [ofUrlSafe, if_neg h.1, if_neg h.2]

theorem ofUrlSafe_of_not_mem (h : c ∉ base64UrlSafeChars) : ofUrlSafe c = c := by
  have hne : c ≠ '-' ∧ c ≠ '_' := by simpa [base64UrlSafeChars] using h
  rw [ofUrlSafe, if_neg hne.1, if_neg hne.2]

/-- The branch without a copy decodes the same text. -/
theorem urlDecode_eq (hplain : ∀ c ∈ input, c ∉ base64Chars) :
    urlDecode policy input =
      if policy.admits input then decode (resizePadded (input.map ofUrlSafe)) else none := by
  have hany : input.any base64Chars.contains = false := by
    rw [List.any_eq_false]
    intro c hc
    simpa using hplain c hc
  rw [urlDecode, hany]
  cases policy.admits input with
  | false => rfl
  | true =>
      simp only [Bool.false_eq_true, if_false, Bool.not_true, if_true]
      split_ifs with hneeds
      · rfl
      · rw [not_or, Bool.not_eq_true, List.any_eq_false] at hneeds
        have hmap : input.map ofUrlSafe = input := by
          conv_rhs => rw [← List.map_id input]
          refine List.map_congr_left fun c hc => ofUrlSafe_of_not_mem ?_
          simpa using hneeds.2 c hc
        rw [hmap, resizePadded, if_neg hneeds.1]

end Replacing

/-! ## Round trips -/

/-- How much padding is behind `n` characters. -/
def paddingOf (n : ℕ) : ℕ := (4 - n % 4) % 4

section RoundTrip

variable {bytes : List Char}

/-- The encoding is the characters without padding and what is missing behind them. -/
theorem encode_eq_paddingOf (bytes : List Char) :
    encode bytes = unpadded bytes ++ List.replicate (paddingOf (unpadded bytes).length) '=' ∧
      (paddingOf (unpadded bytes).length = 0 ↔ bytes.length % 3 = 0) := by
  obtain ⟨k, hk, heq⟩ := encode_eq_unpadded bytes
  have hlength := length_encode bytes
  have hunpadded : (unpadded bytes).length = (bytes.length * 4 + 2) / 3 := by
    clear heq hlength
    induction bytes using unpadded.induct with
    | case1 => rfl
    | case2 a => simp [unpadded]
    | case3 a b => simp [unpadded]
    | case4 a b c bytes ih =>
        rw [unpadded, List.length_cons, List.length_cons, List.length_cons, List.length_cons, ih,
          List.length_cons, List.length_cons, List.length_cons]
        omega
  rw [heq, List.length_append, List.length_replicate] at hlength
  have hpadding : k = paddingOf (unpadded bytes).length := by
    rw [paddingOf]
    omega
  rw [heq, hpadding]
  refine ⟨rfl, ?_⟩
  rw [paddingOf, hunpadded]
  omega

theorem sextetChar_ne_urlSafe : ∀ d, sextetChar d ≠ '-' ∧ sextetChar d ≠ '_' :=
  forall_sextetChar (P := fun c => c ≠ '-' ∧ c ≠ '_') (by decide)

theorem toUrlSafe_sextetChar_not_mem : ∀ d, toUrlSafe (sextetChar d) ∉ base64Chars :=
  forall_sextetChar (P := fun c => toUrlSafe c ∉ base64Chars) (by decide)

theorem toUrlSafe_sextetChar_ne_pad : ∀ d, toUrlSafe (sextetChar d) ≠ '=' :=
  forall_sextetChar (P := fun c => toUrlSafe c ≠ '=') (by decide)

theorem rdropWhile_replicate {chars : List Char} (h : paddingChar ∉ chars) (k : ℕ) :
    (chars ++ List.replicate k paddingChar).rdropWhile (· = paddingChar) = chars := by
  induction k with
  | zero =>
      rw [List.replicate_zero, List.append_nil, List.rdropWhile_eq_self_iff]
      intro hne hlast
      rw [decide_eq_true_eq] at hlast
      exact h (hlast ▸ List.getLast_mem hne)
  | succ k ih =>
      rw [List.replicate_succ', ← List.append_assoc, List.rdropWhile_concat_pos]
      · exact ih
      · exact decide_eq_true rfl

/-- The characters of `url_encode`, and its padding. -/
theorem urlEncode_eq (policy : UrlEncodePolicy) (bytes : List Char) :
    urlEncode policy bytes = (unpadded bytes).map toUrlSafe ++
      List.replicate (if policy = .includePadding then paddingOf (unpadded bytes).length else 0)
        '=' := by
  have hmap : (encode bytes).map toUrlSafe = (unpadded bytes).map toUrlSafe ++
      List.replicate (paddingOf (unpadded bytes).length) '=' := by
    rw [(encode_eq_paddingOf bytes).1, List.map_append, List.map_replicate]
    rfl
  cases policy with
  | includePadding =>
      rw [urlEncode, hmap]
      rfl
  | omitPadding =>
      have hpad : paddingChar ∉ (unpadded bytes).map toUrlSafe := by
        intro hmem
        obtain ⟨c, hc, hpad⟩ := List.mem_map.1 hmem
        obtain ⟨d, rfl⟩ := mem_unpadded bytes c hc
        exact toUrlSafe_sextetChar_ne_pad d hpad
      have hkept := rdropWhile_replicate hpad (paddingOf (unpadded bytes).length)
      rw [urlEncode, hmap]
      change (if ((unpadded bytes).map toUrlSafe ++ List.replicate
        (paddingOf (unpadded bytes).length) paddingChar).rdropWhile (· = paddingChar) = [] then _
        else _) = _
      rw [hkept, if_neg (by decide : ¬ UrlEncodePolicy.omitPadding = .includePadding)]
      split_ifs with hnil
      · have hlength : (unpadded bytes).length = 0 := by
          rw [← List.length_map (f := toUrlSafe), hnil, List.length_nil]
        rw [hlength]
        rfl
      · rw [List.replicate_zero, List.append_nil]
        exact hkept

/-- The padding that `url_decode` adds is the one that is missing. -/
theorem resizePadded_append {chars : List Char} {k : ℕ}
    (hk : k = 0 ∨ k = paddingOf chars.length) :
    resizePadded (chars ++ List.replicate k '=') =
      chars ++ List.replicate (paddingOf chars.length) '=' := by
  rw [resizePadded, List.length_append, List.length_replicate]
  rcases hk with rfl | rfl
  · rw [Nat.add_zero, List.replicate_zero, List.append_nil]
    split_ifs with hmod
    · have hpadding : paddingOf chars.length = 4 - chars.length % 4 := by
        rw [paddingOf]
        omega
      rw [hpadding]
      rfl
    · have hpadding : paddingOf chars.length = 0 := by
        rw [paddingOf]
        omega
      rw [hpadding, List.replicate_zero, List.append_nil]
  · rw [if_neg]
    rw [paddingOf]
    omega

/-- What the policies ask of the padding of `n` bytes. -/
def Suits (encodePolicy : UrlEncodePolicy) (decodePolicy : UrlDecodePolicy) (n : ℕ) : Prop :=
  (encodePolicy = .includePadding → decodePolicy = .disallowPadding → n % 3 = 0) ∧
    (encodePolicy = .omitPadding → decodePolicy = .requirePadding → n % 3 = 0)

theorem admits_urlEncode (encodePolicy : UrlEncodePolicy) (decodePolicy : UrlDecodePolicy)
    (bytes : List Char) :
    decodePolicy.admits (urlEncode encodePolicy bytes) = true ↔
      Suits encodePolicy decodePolicy bytes.length := by
  have hpadding := (encode_eq_paddingOf bytes).2
  have hpad : '=' ∉ (unpadded bytes).map toUrlSafe := by
    intro hmem
    obtain ⟨c, hc, hpad⟩ := List.mem_map.1 hmem
    obtain ⟨d, rfl⟩ := mem_unpadded bytes c hc
    exact toUrlSafe_sextetChar_ne_pad d hpad
  rw [urlEncode_eq]
  cases encodePolicy with
  | includePadding =>
      rw [if_pos rfl]
      cases decodePolicy with
      | requirePadding =>
          refine iff_of_true ?_ ⟨by simp, by simp⟩
          rw [UrlDecodePolicy.admits, beq_iff_eq, List.length_append, List.length_map,
            List.length_replicate, paddingOf]
          omega
      | ignorePadding => exact iff_of_true rfl ⟨by simp, by simp⟩
      | disallowPadding =>
          rw [Suits, ← hpadding, UrlDecodePolicy.admits]
          simp [paddingChar, hpad, List.mem_replicate]
  | omitPadding =>
      rw [if_neg (by decide : ¬ UrlEncodePolicy.omitPadding = .includePadding),
        List.replicate_zero, List.append_nil]
      cases decodePolicy with
      | requirePadding =>
          rw [Suits, ← hpadding, UrlDecodePolicy.admits, beq_iff_eq, List.length_map, paddingOf]
          simp only [reduceCtorEq, false_implies, forall_const, true_and]
          omega
      | ignorePadding => exact iff_of_true rfl ⟨by simp, by simp⟩
      | disallowPadding =>
          refine iff_of_true ?_ ⟨by simp, by simp⟩
          simpa [UrlDecodePolicy.admits, paddingChar] using hpad

end RoundTrip

/-- What was encoded is decoded again, under every two policies that suit each other for the length
of the input, and is refused under all others. -/
theorem urlDecode_urlEncode (encodePolicy : UrlEncodePolicy) (decodePolicy : UrlDecodePolicy)
    (bytes : List Char) (h : ∀ a ∈ bytes, a.toNat < 256) :
    (Suits encodePolicy decodePolicy bytes.length →
        urlDecode decodePolicy (urlEncode encodePolicy bytes) = some bytes) ∧
      (¬ Suits encodePolicy decodePolicy bytes.length →
        urlDecode decodePolicy (urlEncode encodePolicy bytes) = none) := by
  have hadmits := admits_urlEncode encodePolicy decodePolicy bytes
  have hplain : ∀ c ∈ urlEncode encodePolicy bytes, c ∉ base64Chars := by
    intro c hc
    rw [urlEncode_eq, List.mem_append] at hc
    rcases hc with hc | hc
    · obtain ⟨p, hp, rfl⟩ := List.mem_map.1 hc
      obtain ⟨d, rfl⟩ := mem_unpadded bytes p hp
      exact toUrlSafe_sextetChar_not_mem d
    · rw [List.eq_of_mem_replicate hc]
      decide
  have hback : (urlEncode encodePolicy bytes).map ofUrlSafe = unpadded bytes ++ List.replicate
      (if encodePolicy = .includePadding then paddingOf (unpadded bytes).length else 0) '=' := by
    have hunpadded : ((unpadded bytes).map toUrlSafe).map ofUrlSafe = unpadded bytes := by
      rw [List.map_map]
      conv_rhs => rw [← List.map_id (unpadded bytes)]
      refine List.map_congr_left fun p hp => ?_
      obtain ⟨d, rfl⟩ := mem_unpadded bytes p hp
      exact ofUrlSafe_toUrlSafe (sextetChar_ne_urlSafe d)
    rw [urlEncode_eq, List.map_append, hunpadded, List.map_replicate]
    rfl
  rw [urlDecode_eq hplain, hback, resizePadded_append, ← (encode_eq_paddingOf bytes).1,
    decode_encode h]
  · constructor
    · intro hsuits
      rw [if_pos (hadmits.2 hsuits)]
    · intro hsuits
      rw [if_neg (mt hadmits.1 hsuits)]
  · split_ifs
    · exact .inr rfl
    · exact .inl rfl

theorem urlDecode_urlEncode_slash :
    urlEncode .omitPadding ['ÿ', 'ÿ'] = ['_', '_', '8'] ∧
      urlDecode .disallowPadding (urlEncode .omitPadding ['ÿ', 'ÿ']) = some ['ÿ', 'ÿ'] :=
  ⟨by decide, (urlDecode_urlEncode .omitPadding .disallowPadding ['ÿ', 'ÿ'] (by simp)).1
    ⟨by decide, by decide⟩⟩

/-! ## Which texts are decoded -/

/-- A character of the alphabet for URLs. -/
def isUrlAlphabet (c : Char) : Bool :=
  ('A' ≤ c && c ≤ 'Z') || ('a' ≤ c && c ≤ 'z') || ('0' ≤ c && c ≤ '9') ||
    base64UrlSafeChars.contains c

/-- How many characters of padding the policy takes behind `n` characters. -/
def UrlDecodePolicy.takes : UrlDecodePolicy → ℕ → ℕ → Prop
  | requirePadding, n, k => k = paddingOf n
  | ignorePadding, n, k => k ≤ paddingOf n
  | disallowPadding, _, k => k = 0

/-- A text of whole groups: characters of the alphabet, and padding as the policy takes it. -/
def WellFormed (policy : UrlDecodePolicy) (input : List Char) : Prop :=
  ∃ body k, input = body ++ List.replicate k paddingChar ∧
    (∀ c ∈ body, isUrlAlphabet c = true) ∧ body.length % 4 ≠ 1 ∧ policy.takes body.length k

section Accepted

variable {input : List Char} {policy : UrlDecodePolicy}

theorem isSome_sextet_ofUrlSafe {c : Char} (h : c ∉ base64Chars) :
    (sextet (ofUrlSafe c)).isSome = isUrlAlphabet c := by
  have hne : c ≠ '+' ∧ c ≠ '/' := by simpa [base64Chars] using h
  by_cases hsafe : c ∈ base64UrlSafeChars
  · have hcases : c = '-' ∨ c = '_' := by simpa [base64UrlSafeChars] using hsafe
    rcases hcases with rfl | rfl <;> decide
  · have hcontains : base64UrlSafeChars.contains c = false := by
      simpa using hsafe
    rw [ofUrlSafe_of_not_mem hsafe, isUrlAlphabet, hcontains, sextet, if_neg hne.1, if_neg hne.2]
    split_ifs with hupper hlower hdigit
    · simp [hupper]
    · simp [hlower]
    · simp [hdigit]
    · simp only [Option.isSome_none, Bool.or_false]
      symm
      simp only [Bool.or_eq_false_iff, Bool.and_eq_false_iff, decide_eq_false_iff_not]
      exact ⟨⟨not_and_or.1 hupper, not_and_or.1 hlower⟩, not_and_or.1 hdigit⟩

theorem isSome_decodeGroups (chars : List Char) :
    (decodeGroups chars).isSome = chars.all fun c => (sextet c).isSome := by
  induction chars using decodeGroups.induct with
  | case1 => rfl
  | case2 p => simp [decodeGroups]
  | case3 p q =>
      rw [decodeGroups]
      cases hp : sextet p <;> cases hq : sextet q <;> simp [hp, hq]
  | case4 p q r =>
      rw [decodeGroups]
      cases hp : sextet p <;> cases hq : sextet q <;> cases hr : sextet r <;> simp [hp, hq, hr]
  | case5 p q r s chars ih =>
      rw [decodeGroups, List.all_cons, List.all_cons, List.all_cons, List.all_cons, ← ih]
      cases hp : sextet p <;> cases hq : sextet q <;> cases hr : sextet r <;>
        cases hs : sextet s <;> cases hchars : decodeGroups chars <;> simp

theorem isSome_decode (chars : List Char) : (decode chars).isSome = true ↔
    chars.length % 4 = 0 ∧ ∀ c ∈ dropPad chars, (sextet c).isSome = true := by
  rw [decode]
  split_ifs with hnil hlength
  · rw [hnil]
    exact iff_of_true rfl ⟨rfl, by simp [dropPad]⟩
  · have hpos := List.length_pos_of_ne_nil hnil
    refine iff_of_false (by simp) fun h => ?_
    omega
  · rw [isSome_decodeGroups, List.all_eq_true]
    exact ⟨fun h => ⟨by omega, h⟩, fun h => h.2⟩

theorem exists_padding (chars : List Char) : ∃ body k,
    chars = body ++ List.replicate k paddingChar ∧ body.getLast? ≠ some paddingChar := by
  induction chars using List.reverseRecOn with
  | nil => exact ⟨[], 0, rfl, by simp⟩
  | append_singleton chars c ih =>
      by_cases hc : c = paddingChar
      · obtain ⟨body, k, rfl, hlast⟩ := ih
        refine ⟨body, k + 1, ?_, hlast⟩
        rw [hc, List.append_assoc, ← List.replicate_succ']
      · refine ⟨chars ++ [c], 0, by simp, ?_⟩
        rw [List.getLast?_concat]
        exact fun h => hc (Option.some.inj h)

theorem le_two_of_forall_dropPad {body : List Char} {k : ℕ}
    (h : ∀ c ∈ dropPad (body ++ List.replicate k '='), (sextet c).isSome = true) : k ≤ 2 := by
  by_contra hk
  have hpad : '=' ∈ dropPad (body ++ List.replicate k '=') := by
    obtain ⟨j, rfl⟩ := Nat.exists_eq_add_of_le' (Nat.lt_of_not_le hk)
    have hsplit : body ++ List.replicate (j + 3) '=' =
        (body ++ List.replicate (j + 1) '=') ++ ['='] ++ ['='] := by
      rw [List.replicate_succ', List.replicate_succ', ← List.append_assoc, ← List.append_assoc]
    rw [hsplit, dropPad, List.getLast?_concat, if_pos rfl, List.dropLast_concat,
      List.getLast?_concat, if_pos rfl, List.dropLast_concat]
    simp
  have hsome := h '=' hpad
  cases hsome

theorem ofUrlSafe_ne_pad {c : Char} (h : c ≠ paddingChar) : ofUrlSafe c ≠ '=' := by
  rw [ofUrlSafe]
  split_ifs
  · decide
  · decide
  · exact h

theorem isUrlAlphabet_not_mem {c : Char} (h : isUrlAlphabet c = true) :
    c ∉ base64Chars ∧ c ≠ paddingChar := by
  constructor
  · intro hmem
    have hcases : c = '+' ∨ c = '/' := by simpa [base64Chars] using hmem
    rcases hcases with rfl | rfl
    · exact absurd h (by decide)
    · exact absurd h (by decide)
  · rintro rfl
    exact absurd h (by decide)

/-- The padding that is missing behind `n` characters and `k` of padding. -/
theorem length_resizePadded {body : List Char} {k : ℕ} :
    ∃ j, k ≤ j ∧ resizePadded (body ++ List.replicate k '=') = body ++ List.replicate j '=' ∧
      (body.length + j) % 4 = 0 ∧ j < k + 4 := by
  rw [resizePadded, List.length_append, List.length_replicate]
  split_ifs with hmod
  · refine ⟨k + (4 - (body.length + k) % 4), by omega, ?_, by omega, by omega⟩
    rw [List.replicate_add, List.append_assoc]
    rfl
  · exact ⟨k, Nat.le_refl k, rfl, by omega, by omega⟩

theorem isSome_decode_resizePadded {body : List Char} {k : ℕ}
    (hlast : body.getLast? ≠ some paddingChar) (hplain : ∀ c ∈ body, c ∉ base64Chars) :
    (decode (resizePadded ((body ++ List.replicate k paddingChar).map ofUrlSafe))).isSome = true ↔
      (∀ c ∈ body, isUrlAlphabet c = true) ∧ body.length % 4 ≠ 1 ∧ k ≤ paddingOf body.length := by
  have hmap : (body ++ List.replicate k paddingChar).map ofUrlSafe =
      body.map ofUrlSafe ++ List.replicate k '=' := by
    rw [List.map_append, List.map_replicate]
    rfl
  obtain ⟨j, hkj, hresize, hwhole, hj⟩ := @length_resizePadded (body.map ofUrlSafe) k
  have hdropped : j ≤ 2 → dropPad (body.map ofUrlSafe ++ List.replicate j '=') =
      body.map ofUrlSafe := by
    refine dropPad_append_of_getLast fun heq => ?_
    rw [List.getLast?_map, Option.map_eq_some_iff] at heq
    obtain ⟨c, hc, hpad⟩ := heq
    exact ofUrlSafe_ne_pad (fun hc' => hlast (hc' ▸ hc)) hpad
  rw [hmap, hresize, isSome_decode, List.length_append, List.length_replicate]
  rw [List.length_map] at hwhole ⊢
  have halphabet : (∀ c ∈ body.map ofUrlSafe, (sextet c).isSome = true) ↔
      ∀ c ∈ body, isUrlAlphabet c = true := by
    rw [List.forall_mem_map]
    refine forall₂_congr fun c hc => ?_
    rw [isSome_sextet_ofUrlSafe (hplain c hc)]
  constructor
  · rintro ⟨-, hall⟩
    have htwo := le_two_of_forall_dropPad hall
    rw [hdropped htwo, halphabet] at hall
    refine ⟨hall, ?_, ?_⟩
    · omega
    · rw [paddingOf]
      omega
  · rintro ⟨hall, hone, hk⟩
    rw [paddingOf] at hk
    have htwo : j ≤ 2 := by omega
    rw [hdropped htwo, halphabet]
    exact ⟨hwhole, hall⟩

end Accepted

/-- A text is decoded if and only if it is well formed for the policy. -/
theorem isSome_urlDecode_iff (policy : UrlDecodePolicy) (input : List Char) :
    (urlDecode policy input).isSome = true ↔ WellFormed policy input := by
  constructor
  · intro h
    have hplain : ∀ c ∈ input, c ∉ base64Chars := by
      intro c hc hmem
      have hany : input.any base64Chars.contains = true :=
        List.any_eq_true.2 ⟨c, hc, by simpa using hmem⟩
      rw [urlDecode, if_pos hany] at h
      cases h
    rw [urlDecode_eq hplain] at h
    cases hadmits : policy.admits input with
    | false =>
        rw [hadmits] at h
        cases h
    | true =>
        rw [hadmits, if_pos rfl] at h
        obtain ⟨body, k, rfl, hlast⟩ := exists_padding input
        have hbody : ∀ c ∈ body, c ∉ base64Chars :=
          fun c hc => hplain c (List.mem_append_left _ hc)
        obtain ⟨hall, hone, hk⟩ := (isSome_decode_resizePadded hlast hbody).1 h
        refine ⟨body, k, rfl, hall, hone, ?_⟩
        cases policy with
        | requirePadding =>
            rw [UrlDecodePolicy.admits, beq_iff_eq, List.length_append,
              List.length_replicate] at hadmits
            rw [UrlDecodePolicy.takes]
            rw [paddingOf] at hk ⊢
            omega
        | ignorePadding => exact hk
        | disallowPadding =>
            rw [UrlDecodePolicy.takes]
            by_contra hne
            simp [UrlDecodePolicy.admits, hne] at hadmits
  · rintro ⟨body, k, rfl, hall, hone, htakes⟩
    have hpad : paddingChar ∉ body := fun hmem => (isUrlAlphabet_not_mem (hall _ hmem)).2 rfl
    have hbody : ∀ c ∈ body, c ∉ base64Chars :=
      fun c hc => (isUrlAlphabet_not_mem (hall c hc)).1
    have hplain : ∀ c ∈ body ++ List.replicate k paddingChar, c ∉ base64Chars := by
      intro c hc
      rcases List.mem_append.1 hc with hc | hc
      · exact hbody c hc
      · rw [List.eq_of_mem_replicate hc]
        decide
    have hlast : body.getLast? ≠ some paddingChar := fun heq => hpad (List.mem_of_getLast? heq)
    have hk : k ≤ paddingOf body.length := by
      cases policy with
      | requirePadding => exact Nat.le_of_eq htakes
      | ignorePadding => exact htakes
      | disallowPadding =>
          rw [show k = 0 from htakes]
          exact Nat.zero_le _
    have hadmits : policy.admits (body ++ List.replicate k paddingChar) = true := by
      cases policy with
      | requirePadding =>
          rw [UrlDecodePolicy.admits, beq_iff_eq, List.length_append, List.length_replicate,
            show k = paddingOf body.length from htakes, paddingOf]
          omega
      | ignorePadding => rfl
      | disallowPadding =>
          rw [show k = 0 from htakes, List.replicate_zero, List.append_nil]
          simpa [UrlDecodePolicy.admits] using hpad
    rw [urlDecode_eq hplain, if_pos hadmits]
    exact (isSome_decode_resizePadded hlast hbody).2 ⟨hall, hone, hk⟩

end Webpp.Crypto
