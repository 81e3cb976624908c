import Webpp.Foundation.Numerals
import Webpp.Uri.ParseUri

/-!
# Codes of schemes

The names of schemes are compared by their codes, 64 bits through which all the characters have
been shifted. Seven of them are left at the end, none of which is zero, so that a name of five
characters or less has its code for itself.
-/

namespace Webpp.Uri

open ComponentEncoder ShiftRegister

variable {σ : Type}

/-- The names whose codes are looked for. -/
def codedSchemes : List (List Char) := specialSchemes ++ [['f', 'i', 'l', 'e']]

/-- A text without the characters that are ignored, in lower case. -/
def lowerName (text : List Char) : List Char :=
  (text.filter fun c => !isTabOrNewline c).map toLowerCopy

/-- The code that `known_port` computes. -/
def knownPortCode (scheme : List Char) : ℕ := schemeCode (lowerName scheme)

theorem knownPort_eq (scheme : List Char) :
    knownPort scheme =
      if knownPortCode scheme = schemeCode ['h', 't', 't', 'p'] ∨
          knownPortCode scheme = schemeCode ['w', 's'] then 80
      else if knownPortCode scheme = schemeCode ['h', 't', 't', 'p', 's'] ∨
          knownPortCode scheme = schemeCode ['w', 's', 's'] then 443
      else if knownPortCode scheme = schemeCode ['f', 't', 'p'] then 21
      else 0 := rfl

/-- A letter, and letters, digits and the three signs behind it; tabs and newlines in between
where they are ignored. -/
structure IsSchemeText (o : Options) (text : List Char) : Prop where
  chars : ∃ c rest, (text.filter fun c => !isTabOrNewline c) = c :: rest ∧
    asciiAlpha.contains c = true ∧ ∀ d ∈ rest, schemeChars.contains d = true
  ignored : o.ignoreTabsOrNewlines = true ∨ ∀ c ∈ text, isTabOrNewline c = false

/-! ## The register -/

/-- The characters of a name as digits, the last one first. -/
def nameDigits (name : List Char) : List ℕ := (name.map Char.toNat).reverse

/-- Every character of the name is a digit of the register. -/
def IsCodedName (name : List Char) : Prop := ∀ d ∈ nameDigits name, IsDigit 256 d

theorem nameDigits_append (name : List Char) (c : Char) :
    nameDigits (name ++ [c]) = c.toNat :: nameDigits name := by
  rw [nameDigits, List.map_append, List.reverse_append]
  rfl

theorem nameDigits_inj {name short : List Char} :
    nameDigits name = nameDigits short ↔ name = short := by
  rw [nameDigits, nameDigits, List.reverse_inj]
  exact (List.map_injective_iff.mpr fun c d h => Char.toNat_inj.mp h).eq_iff

theorem isCodedName_iff {name : List Char} :
    IsCodedName name ↔ ∀ c ∈ name, 0 < c.toNat ∧ c.toNat < 256 := by
  rw [IsCodedName, nameDigits]
  simp only [List.mem_reverse, List.forall_mem_map]
  rfl

theorem schemeCode_append (name : List Char) (c : Char) :
    schemeCode (name ++ [c]) = ((schemeCode name ||| c.toNat) <<< 8) % 2 ^ 64 := by
  rw [schemeCode, List.foldl_append]
  rfl

theorem schemeCode_eq_code (name : List Char) (h : IsCodedName name) :
    schemeCode name = code 256 8 (nameDigits name) := by
  induction name using List.reverseRecOn with
  | nil => rfl
  | append_singleton name c ih =>
      rw [IsCodedName, nameDigits_append] at h
      obtain ⟨hc, hname⟩ := List.forall_mem_cons.mp h
      -- the lowest place is free, so that the character is added to it
      have hplaces : (256 : ℕ) ^ 8 = 2 ^ 64 := by norm_num
      have hfree : 2 ^ 8 ∣ code 256 8 (nameDigits name) := code_dvd (by decide) _
      obtain ⟨k, hk⟩ := hfree
      have hor : 2 ^ 8 * k ||| c.toNat = 2 ^ 8 * k + c.toNat :=
        (Nat.two_pow_add_eq_or_of_lt hc.2 k).symm
      rw [schemeCode_append, ih hname, nameDigits_append, code, hk, hor, Nat.shiftLeft_eq,
        hplaces]

theorem schemeCode_eq_iff {name short : List Char} (hname : IsCodedName name)
    (hshort : IsCodedName short) (hlength : short.length ≤ 6) :
    schemeCode name = schemeCode short ↔ name = short := by
  have hdigits : (nameDigits short).length + 2 ≤ 8 := by
    rw [nameDigits, List.length_reverse, List.length_map]
    exact Nat.add_le_add_right hlength 2
  rw [schemeCode_eq_code name hname, schemeCode_eq_code short hshort,
    code_eq_iff hdigits hname hshort, nameDigits_inj]

/-! ## Characters of schemes -/

theorem isCodedName_of_mem {scheme : List Char} (h : scheme ∈ codedSchemes) :
    IsCodedName scheme ∧ scheme.length ≤ 6 := by
  have hall : ∀ scheme ∈ codedSchemes,
      (∀ c ∈ scheme, 0 < c.toNat ∧ c.toNat < 256) ∧ scheme.length ≤ 6 := by decide
  exact ⟨isCodedName_iff.mpr (hall scheme h).1, (hall scheme h).2⟩

theorem toNat_toLowerCopy {c : Char} (hpos : 0 < c.toNat) (hlt : c.toNat < 128) :
    0 < (toLowerCopy c).toNat ∧ (toLowerCopy c).toNat < 256 :=
  forall_ascii (P := fun c => 0 < c.toNat → 0 < (toLowerCopy c).toNat ∧
    (toLowerCopy c).toNat < 256) (by decide) hlt hpos

theorem toNat_of_contains {s : AsciiBitmap} {c : Char} (hnul : s.contains '\x00' = false)
    (h : s.contains c = true) : 0 < c.toNat ∧ c.toNat < 128 := by
  have hlt : c.toNat < 128 := of_decide_eq_true ((Bool.and_eq_true _ _).mp h).1
  refine ⟨Nat.pos_of_ne_zero fun hzero => ?_, hlt⟩
  have hc : c = '\x00' := Char.toNat_inj.mp hzero
  rw [hc, hnul] at h
  cases h

/-! ## Texts of schemes -/

section Text

variable {o : Options} {text : List Char}

theorem IsSchemeText.split (h : IsSchemeText o text) :
    ∃ tabs c rest, text = tabs ++ c :: rest ∧ (∀ d ∈ tabs, isTabOrNewline d = true) ∧
      asciiAlpha.contains c = true ∧ isTabOrNewline c = false ∧
      ∀ d ∈ rest, isTabOrNewline d = false → schemeChars.contains d = true := by
  obtain ⟨c, kept, hkept, hc, hrest⟩ := h.chars
  obtain ⟨tabs, rest, htext, htabs, hkeep, hfilter⟩ := List.filter_eq_cons_iff.mp hkept
  refine ⟨tabs, c, rest, htext, fun d hd => ?_, hc, by simpa using hkeep, fun d hd htab => ?_⟩
  · simpa using htabs d hd
  · have hmem : d ∈ kept := by
      rw [← hfilter, List.mem_filter]
      exact ⟨hd, by rw [htab]; rfl⟩
    exact hrest d hmem

theorem IsSchemeText.isCodedName (h : IsSchemeText o text) : IsCodedName (lowerName text) := by
  obtain ⟨c, kept, hkept, hc, hrest⟩ := h.chars
  rw [isCodedName_iff, lowerName, hkept, List.forall_mem_map]
  refine List.forall_mem_cons.mpr ⟨?_, fun d hd => ?_⟩
  · have hbounds := toNat_of_contains (by decide) hc
    exact toNat_toLowerCopy hbounds.1 hbounds.2
  · have hbounds := toNat_of_contains (by decide) (hrest d hd)
    exact toNat_toLowerCopy hbounds.1 hbounds.2

end Text

theorem knownPortCode_iff {o : Options} {text scheme : List Char} (h : IsSchemeText o text)
    (hscheme : scheme ∈ codedSchemes) :
    knownPortCode text = schemeCode scheme ↔ lowerName text = scheme := by
  obtain ⟨hcoded, hlength⟩ := isCodedName_of_mem hscheme
  exact schemeCode_eq_iff h.isCodedName hcoded hlength

/-- The default port of a scheme. -/
def defaultPort (scheme : List Char) : Option ℕ :=
  let name := lowerName scheme
  if name = ['h', 't', 't', 'p'] ∨ name = ['w', 's'] then some 80
  else if name = ['h', 't', 't', 'p', 's'] ∨ name = ['w', 's', 's'] then some 443
  else if name = ['f', 't', 'p'] then some 21
  else none

theorem knownPort_eq_getD {o : Options} {scheme : List Char} (h : IsSchemeText o scheme) :
    knownPort scheme = (defaultPort scheme).getD 0 := by
  have hcode (name : List Char) (hname : name ∈ codedSchemes) :
      knownPortCode scheme = schemeCode name ↔ lowerName scheme = name :=
    knownPortCode_iff h hname
  have hhttp := hcode ['h', 't', 't', 'p'] (by decide)
  have hws := hcode ['w', 's'] (by decide)
  have hhttps := hcode ['h', 't', 't', 'p', 's'] (by decide)
  have hwss := hcode ['w', 's', 's'] (by decide)
  have hftp := hcode ['f', 't', 'p'] (by decide)
  rw [knownPort_eq, defaultPort]
  simp only [hhttp, hws, hhttps, hwss, hftp]
  split_ifs <;> rfl

/-! ## The loop -/

variable {o : Options}

theorem schemeChars_ne {c : Char} (h : schemeChars.contains c = true) :
    c ≠ ':' ∧ c ≠ '\x00' := by
  constructor
  · rintro rfl
    exact absurd h (by decide)
  · rintro rfl
    exact absurd h (by decide)

theorem isTabOrNewline_ne {c : Char} (h : isTabOrNewline c = true) :
    c ≠ ':' ∧ c ≠ '\x00' := by
  constructor
  · rintro rfl
    exact absurd h (by decide)
  · rintro rfl
    exact absurd h (by decide)

theorem lowerName_cons (c : Char) (text : List Char) :
    lowerName (c :: text) =
      if isTabOrNewline c then lowerName text else toLowerCopy c :: lowerName text := by
  rw [lowerName, List.filter_cons]
  cases isTabOrNewline c <;> rfl

theorem schemeLoop_text {text : List Char} (rest name : List Char) (ctx : Ctx σ)
    (hchars : ∀ d ∈ text, isTabOrNewline d = false → schemeChars.contains d = true)
    (hignored : o.ignoreTabsOrNewlines = true ∨ ∀ d ∈ text, isTabOrNewline d = false) :
    ∃ ctx', schemeLoop o (text ++ ':' :: rest) name ctx =
        (some (name ++ lowerName text), ctx') ∧
      ctx'.pos = ':' :: rest := by
  induction text generalizing name ctx with
  | nil => exact ⟨{ ctx with pos := ':' :: rest }, by simp [schemeLoop, lowerName], rfl⟩
  | cons c text ih =>
      obtain ⟨hc, htext⟩ := List.forall_mem_cons.mp hchars
      have htail : o.ignoreTabsOrNewlines = true ∨ ∀ d ∈ text, isTabOrNewline d = false :=
        hignored.imp_right fun h => (List.forall_mem_cons.mp h).2
      rw [List.cons_append, schemeLoop, lowerName_cons]
      by_cases htab : isTabOrNewline c = true
      · have hignore : o.ignoreTabsOrNewlines = true :=
          hignored.resolve_right fun h => by rw [h c List.mem_cons_self] at htab; cases htab
        rw [if_neg (isTabOrNewline_ne htab).1, if_neg (isTabOrNewline_ne htab).2,
          if_pos ⟨htab, hignore⟩, if_pos htab]
        exact ih name _ htext htail
      · have hchar := hc (Bool.eq_false_iff.mpr htab)
        have hin : ¬(!schemeChars.contains c) = true := by rw [hchar]; decide
        rw [if_neg (schemeChars_ne hchar).1, if_neg (schemeChars_ne hchar).2,
          if_neg fun h => htab h.1, if_neg hin, if_neg htab]
        obtain ⟨ctx', hloop, hpos⟩ := ih (name ++ [toLowerCopy c]) ctx htext htail
        exact ⟨ctx', by rw [hloop, List.append_assoc]; rfl, hpos⟩

theorem lowerName_tabs {tabs : List Char} (h : ∀ d ∈ tabs, isTabOrNewline d = true)
    (text : List Char) : lowerName (tabs ++ text) = lowerName text := by
  have hnone : (tabs.filter fun d => !isTabOrNewline d) = [] :=
    List.filter_eq_nil_iff.mpr fun d hd => by rw [h d hd]; decide
  rw [lowerName, List.filter_append, hnone]
  rfl

theorem schemeStart_text {tabs pos : List Char} {c : Char} {ctx : Ctx σ}
    (hpos : ctx.pos = tabs ++ c :: pos) (htabs : ∀ d ∈ tabs, isTabOrNewline d = true)
    (hignored : o.ignoreTabsOrNewlines = true ∨ tabs = [])
    (hletter : asciiAlpha.contains c = true) (htab : isTabOrNewline c = false) :
    ∃ ctx', schemeStart o ctx = .ok (some (c :: pos), ctx') := by
  cases tabs with
  | nil =>
      rw [List.nil_append] at hpos
      rw [schemeStart, hpos]
      exact ⟨ctx, if_pos hletter⟩
  | cons d tabs =>
      have hignore : o.ignoreTabsOrNewlines = true :=
        hignored.resolve_right (List.cons_ne_nil d tabs)
      have hd := htabs d List.mem_cons_self
      have hnoLetter : ¬asciiAlpha.contains d = true := fun h => by
        have hall : ∀ d ∈ ['\t', '\r', '\n'], asciiAlpha.contains d = false := by decide
        rw [hall d (mem_of_isTabOrNewline hd)] at h
        cases h
      have hdrop : ctx.pos.dropWhile isTabOrNewline = c :: pos := by
        rw [hpos, List.dropWhile_append_of_pos htabs, List.dropWhile_cons_of_neg (by simp [htab])]
      have hhead : deref ctx.pos = .ok d := by rw [hpos]; rfl
      rw [schemeStart, hhead, ok_bind, if_neg hnoLetter, hignore, hd, hdrop]
      refine ⟨{ ctx with pos := c :: pos }.setWarning .invalidCharacter, ?_⟩
      rw [Bool.and_true, if_pos rfl]
      show Except.ok ((if asciiAlpha.contains c = true then some (c :: pos) else none), _) = _
      rw [if_pos hletter]

/-- The name by which `parse_scheme` chooses is the text in lower case. -/
theorem parseScheme_text {text rest : List Char} {ctx : Ctx σ} (O : Output σ)
    (htext : IsSchemeText o text) (hpos : ctx.pos = text ++ ':' :: rest) :
    ∃ ctx', parseScheme o O ctx = schemeSwitch o O (lowerName text) ctx' ∧
      ctx'.pos = ':' :: rest := by
  obtain ⟨tabs, c, behind, rfl, htabs, hletter, htab, hbehind⟩ := htext.split
  rw [List.append_assoc, List.cons_append] at hpos
  have hignoredTabs : o.ignoreTabsOrNewlines = true ∨ tabs = [] := by
    refine htext.ignored.imp_right fun h => List.eq_nil_iff_forall_not_mem.mpr fun d hd => ?_
    have hfalse := h d (List.mem_append_left _ hd)
    rw [htabs d hd] at hfalse
    cases hfalse
  have hignored : o.ignoreTabsOrNewlines = true ∨ ∀ d ∈ behind, isTabOrNewline d = false :=
    htext.ignored.imp_right fun h d hd =>
      h d (List.mem_append_right _ (List.mem_cons_of_mem c hd))
  obtain ⟨ctx₁, hstart⟩ := schemeStart_text hpos htabs hignoredTabs hletter htab
  obtain ⟨ctx', hloop, hcolon⟩ := schemeLoop_text rest [toLowerCopy c] ctx₁ hbehind hignored
  have hname : lowerName (tabs ++ c :: behind) = [toLowerCopy c] ++ lowerName behind := by
    rw [lowerName_tabs htabs, lowerName_cons, htab]
    rfl
  have hne : ctx.pos ≠ [] := by
    rw [hpos]
    exact List.append_ne_nil_of_right_ne_nil tabs (List.cons_ne_nil c _)
  refine ⟨ctx', ?_, hcolon⟩
  rw [parseScheme, if_neg hne, hstart, ok_bind]
  dsimp only
  rw [deref_cons, ok_bind, List.tail_cons, hloop, hname]

/-- `parse_scheme` and `known_port` take a text for one of the names exactly where it is that
name but for ignored characters and case. -/
theorem parseScheme_code_iff {text rest : List Char} {ctx : Ctx σ} (O : Output σ)
    (htext : IsSchemeText o text) (hpos : ctx.pos = text ++ ':' :: rest) :
    ∃ name ctx', parseScheme o O ctx = schemeSwitch o O name ctx' ∧ ctx'.pos = ':' :: rest ∧
      ∀ scheme ∈ codedSchemes,
        (schemeCode name = schemeCode scheme ↔ lowerName text = scheme) ∧
          (knownPortCode text = schemeCode scheme ↔ lowerName text = scheme) := by
  obtain ⟨ctx', hparse, hcolon⟩ := parseScheme_text O htext hpos
  refine ⟨lowerName text, ctx', hparse, hcolon, fun scheme hscheme => ?_⟩
  exact ⟨knownPortCode_iff htext hscheme, knownPortCode_iff htext hscheme⟩

theorem isSchemeText_http :
    IsSchemeText standardUriParsingOptions ['\t', 'H', 't', '\n', 'T', 'p', '\r'] :=
  ⟨⟨'H', ['t', 'T', 'p'], by decide, by decide, by decide⟩, .inl rfl⟩

theorem parseScheme_code_iff_http : ∃ name ctx',
    parseScheme standardUriParsingOptions stringOutput (startCtx (fun _ => [])
      ['\t', 'H', 't', '\n', 'T', 'p', '\r', ':', '/', '/', 'a']) =
        schemeSwitch standardUriParsingOptions stringOutput name ctx' ∧
    ctx'.pos = [':', '/', '/', 'a'] ∧ ∀ scheme ∈ codedSchemes,
      (schemeCode name = schemeCode scheme ↔
        lowerName ['\t', 'H', 't', '\n', 'T', 'p', '\r'] = scheme) ∧
      (knownPortCode ['\t', 'H', 't', '\n', 'T', 'p', '\r'] = schemeCode scheme ↔
        lowerName ['\t', 'H', 't', '\n', 'T', 'p', '\r'] = scheme) :=
  parseScheme_code_iff stringOutput isSchemeText_http rfl

end Webpp.Uri
