import Webpp.Uri.PunycodesEncode

/-!
# What `utf8_to_punycode` reads and writes

The look-ahead never refuses anything, so a text that ends inside a sequence is read past its end.
The limit of the output does not count `xn--`, and the loop over the input has none.
-/

namespace Webpp.Uri.Punycodes

open PunycodeRfc (encodeLabel)

variable {label label' : List Char} {text : List UInt8}

/-- The indices of the output that are written. -/
def Result.writes (r : Result) : List ℕ := List.range r.output.length

/-- The documented capacity of the output. -/
def outputCapacity : ℕ := 63

/-- Reads and writes stay inside, and what is not well-formed is refused. -/
def Guarded (input : Input) : Prop :=
  (∀ i ∈ (utf8ToPunycode input).reads, i < input.text.length) ∧
    (∀ i ∈ (utf8ToPunycode input).writes, i < outputCapacity) ∧
    ((¬∃ label, input.text = utf8 label) → (utf8ToPunycode input).value = -1)

/-- The ASCII characters before the first sequence that is not well-formed fit behind `xn--`, and
so does the encoding of a label that is not ASCII. -/
def FitsOutput (text : List UInt8) : Prop :=
  isAscii text ∨
    (∀ label, utf8 label <+: text → (asciiChars label).length ≤ 59) ∧
      ∀ label, text = utf8 label → (encodeLabel (codePoints label)).length ≤ 59

theorem writes_iff (r : Result) :
    (∀ i ∈ r.writes, i < outputCapacity) ↔ r.output.length ≤ 63 := by
  rw [Result.writes, outputCapacity]
  constructor
  · intro h
    by_contra hlt
    exact Nat.lt_irrefl 63 (h 63 (List.mem_range.2 (Nat.not_le.1 hlt)))
  · intro h i hi
    exact Nat.lt_of_lt_of_le (List.mem_range.1 hi) h

variable {input : Input}

/-! ## ASCII -/

theorem utf8_of_ascii (h : isAscii text) : ∃ label, text = utf8 label := by
  induction text with
  | nil => exact ⟨[], rfl⟩
  | cons b text ih =>
      obtain ⟨label, hlabel⟩ := ih (fun x hx => h x (List.mem_cons_of_mem _ hx))
      have hb : b.toNat ≤ 0x7F := by
        rw [← ascii_iff]
        exact UInt8.not_le.2 (h b List.mem_cons_self)
      have hnat : (Char.ofNat b.toNat).toNat = b.toNat :=
        toNat_ofNat (by rw [Nat.isValidChar]; omega)
      refine ⟨Char.ofNat b.toNat :: label, ?_⟩
      rw [utf8_cons, byte_one (by omega), hnat, UInt8.ofNat_toNat, hlabel]
      rfl

theorem utf8ToPunycode_ascii (hlen : input.text.length ≤ 62) (h : isAscii input.text) :
    (∀ i ∈ (utf8ToPunycode input).reads, i < input.text.length) ∧
      (utf8ToPunycode input).output.length ≤ 63 := by
  rw [utf8ToPunycode]
  simp only [if_neg (Nat.not_lt.2 hlen), if_pos (isAllAscii_iff.2 h)]
  constructor
  · intro i hi
    rcases List.mem_append.1 hi with hi | hi
    · exact isAllAscii_reads i hi
    · exact List.mem_range.1 hi
  · rw [List.length_append, List.length_singleton]
    omega

/-! ## Texts that are not well-formed -/

theorem not_guarded_of_cutOff (hlen : input.text.length ≤ 62) (hcut : CutOff input.text) :
    ¬Guarded input := by
  rintro ⟨hreads, -⟩
  have hascii : ¬(isAllAscii input).1 = true := by
    rw [isAllAscii_iff]
    intro h
    obtain ⟨label, lead, tail, htext, hshort, -⟩ := hcut
    have hlead : 0x80 ≤ lead := leading_of_lt (by omega)
    exact UInt8.not_le.2 (h lead (by rw [htext]; simp)) hlead
  obtain ⟨b, hloop, hmem⟩ := decodeLoop_cutOff (isAllAscii input).2 hlen hcut
  have hresult : (utf8ToPunycode input).reads = b.reads := by
    rw [utf8ToPunycode]
    simp only [if_neg (Nat.not_lt.2 hlen), if_neg hascii]
    rcases hloop with hloop | hloop
    · rw [hloop]
    · rw [hloop]
      dsimp only
      cases encodeLoop b.all (b.output.length - acePrefix.length) (sortUniqueValues b.nonBasic)
        (registers b) with
      | error r => rfl
      | ok r => rfl
  exact Nat.lt_irrefl _ (hreads _ (hresult ▸ hmem))

theorem utf8ToPunycode_illFormed (hlen : input.text.length ≤ 62) (hcut : ¬CutOff input.text)
    (hill : ¬∃ label, input.text = utf8 label) :
    (∀ i ∈ (utf8ToPunycode input).reads, i < input.text.length) ∧
      (utf8ToPunycode input).value = -1 ∧
      ∃ label rest, input.text = utf8 label ++ rest ∧
        (∀ c, ¬String.utf8EncodeChar c <+: rest) ∧
        (utf8ToPunycode input).output.length = 4 + (asciiChars label).length := by
  have hascii : ¬(isAllAscii input).1 = true := by
    rw [isAllAscii_iff]
    intro h
    exact hill (utf8_of_ascii h)
  obtain ⟨label, rest, b, htext, hmax, hloop, houtput, hreads⟩ :=
    decodeLoop_illFormed (isAllAscii input).2 hlen hcut hill
  rw [utf8ToPunycode]
  simp only [if_neg (Nat.not_lt.2 hlen), if_neg hascii, hloop]
  refine ⟨?_, trivial, label, rest, htext, hmax, ?_⟩
  · intro i hi
    rcases hreads i hi with hi | hi
    · exact isAllAscii_reads i hi
    · exact hi
  · rw [houtput, decodedTo, List.length_append, List.length_map]
    rfl

theorem map_byte_of_isPrefix {seq text : List UInt8} (h : seq <+: text) :
    seq = (List.range seq.length).map (fun i => text.getD i 0) := by
  obtain ⟨rest, rfl⟩ := h
  apply List.ext_getElem
  · rw [List.length_map, List.length_range]
  · intro i hi _
    rw [List.getElem_map, List.getElem_range, List.getD_eq_getElem?_getD,
      List.getElem?_append_left hi, List.getElem?_eq_getElem hi, Option.getD_some]

theorem toNat_inj {c x : Char} (h : c.toNat = x.toNat) : c = x :=
  Char.ext (UInt32.toNat_inj.1 h)

theorem ascii_of_isPrefix {c : Char} (h : String.utf8EncodeChar c <+: text) :
    c.toNat ≤ 0x7F ∧ (text.getD 0 0).toNat = c.toNat ∨
      0x7F < c.toNat ∧ 0x80 ≤ text.getD 0 0 := by
  have hseq := map_byte_of_isPrefix h
  by_cases hc : c.toNat ≤ 0x7F
  · left
    rw [byte_one hc] at hseq
    have hbyte : UInt8.ofNat c.toNat = text.getD 0 0 := List.singleton_inj.1 hseq
    rw [← hbyte]
    exact ⟨hc, toNat_ofNat_ascii hc⟩
  · exact .inr ⟨Nat.not_le.1 hc, first_byte (Nat.not_le.1 hc) hseq⟩

theorem eq_of_isPrefix {c x : Char} (hc : String.utf8EncodeChar c <+: text)
    (hx : String.utf8EncodeChar x <+: text) : c = x := by
  apply toNat_inj
  rcases ascii_of_isPrefix hc with ⟨hc₁, hc₂⟩ | ⟨hc₁, hc₂⟩ <;>
    rcases ascii_of_isPrefix hx with ⟨hx₁, hx₂⟩ | ⟨hx₁, hx₂⟩
  · rw [← hc₂, hx₂]
  · exact absurd hx₂ ((ascii_iff _).2 (by omega))
  · exact absurd hc₂ ((ascii_iff _).2 (by omega))
  · have h₁ := decodeNonAscii_char (le_refl 4) hc₁ (map_byte_of_isPrefix hc)
    have h₂ := decodeNonAscii_char (le_refl 4) hx₁ (map_byte_of_isPrefix hx)
    rw [h₁] at h₂
    simp only [Prod.mk.injEq, Option.some.injEq] at h₂
    exact h₂.1.1

theorem isPrefix_longest (rest : List UInt8)
    (hmax : ∀ c, ¬String.utf8EncodeChar c <+: rest) (h : utf8 label' <+: utf8 label ++ rest) :
    label' <+: label := by
  induction label generalizing label' with
  | nil =>
      cases label' with
      | nil => exact List.prefix_refl _
      | cons c label' =>
          rw [utf8_cons] at h
          exact absurd ((List.prefix_append _ _).trans h) (hmax c)
  | cons x label ih =>
      cases label' with
      | nil => exact List.nil_prefix
      | cons c label' =>
          rw [utf8_cons, utf8_cons, List.append_assoc] at h
          obtain rfl : c = x :=
            eq_of_isPrefix ((List.prefix_append _ _).trans h) (List.prefix_append _ _)
          rw [List.prefix_append_right_inj] at h
          exact List.cons_prefix_cons.2 ⟨rfl, ih h⟩

theorem length_asciiChars_le (h : label' <+: label) :
    (asciiChars label').length ≤ (asciiChars label).length :=
  (h.filter _).length_le

/-! ## When reads and writes stay inside -/

theorem utf8_inj (h : utf8 label = utf8 label') : label = label' := by
  have hnone : ∀ c, ¬String.utf8EncodeChar c <+: [] := by
    intro c hc
    exact String.utf8EncodeChar_ne_nil (List.prefix_nil.1 hc)
  have h₁ : label <+: label' :=
    isPrefix_longest [] hnone (by simp [h])
  have h₂ : label' <+: label :=
    isPrefix_longest [] hnone (by simp [h])
  exact h₁.eq_of_length (Nat.le_antisymm h₁.length_le h₂.length_le)

theorem length_encodeLabel (label : List Char) :
    (asciiChars label).length ≤ (encodeLabel (codePoints label)).length := by
  rw [encodeLabel, basics_codePoints]
  simp only [List.length_append, List.length_map]
  omega

/-- Reads and writes stay inside if and only if no sequence is cut off and what is written fits. -/
theorem guarded_iff (input : Input) (hlen : input.text.length ≤ 62) :
    Guarded input ↔ ¬CutOff input.text ∧ FitsOutput input.text := by
  by_cases hcut : CutOff input.text
  · exact iff_of_false (not_guarded_of_cutOff hlen hcut) (fun h => h.1 hcut)
  rw [Guarded, writes_iff]
  by_cases hascii : isAscii input.text
  · obtain ⟨hreads, hwrites⟩ := utf8ToPunycode_ascii hlen hascii
    exact iff_of_true ⟨hreads, hwrites, fun hill => absurd (utf8_of_ascii hascii) hill⟩
      ⟨hcut, .inl hascii⟩
  by_cases hwell : ∃ label, input.text = utf8 label
  · obtain ⟨label, htext⟩ := hwell
    obtain ⟨hreads, -, hresult⟩ := utf8ToPunycode_utf8 htext hlen hascii
    have hascii_le := length_encodeLabel label
    have hlength : (utf8ToPunycode input).output.length ≤ 63 ↔
        (encodeLabel (codePoints label)).length ≤ 59 := by
      rcases hresult with ⟨-, hfull, hlong⟩ | ⟨-, houtput, -⟩
      · rw [hfull, outputLimit]
        exact iff_of_false (by decide) (by omega)
      · rw [houtput, List.length_append]
        have hpre : acePrefix.length = 4 := rfl
        omega
    constructor
    · rintro ⟨-, hwrites, -⟩
      refine ⟨hcut, .inr ⟨?_, ?_⟩⟩
      · intro label' hpre
        have hlabel : label' <+: label := by
          apply isPrefix_longest []
          · intro c hc
            exact String.utf8EncodeChar_ne_nil (List.prefix_nil.1 hc)
          · rwa [List.append_nil, ← htext]
        have hle := length_asciiChars_le hlabel
        have hbound := hlength.1 hwrites
        omega
      · intro label' htext'
        rw [utf8_inj (htext'.symm.trans htext)]
        exact hlength.1 hwrites
    · rintro ⟨-, hfits | ⟨-, hfits⟩⟩
      · exact absurd hfits hascii
      · exact ⟨hreads, hlength.2 (hfits label htext), fun hill => absurd ⟨label, htext⟩ hill⟩
  · obtain ⟨hreads, hvalue, label, rest, htext, hmax, hlength⟩ :=
      utf8ToPunycode_illFormed hlen hcut hwell
    constructor
    · rintro ⟨-, hwrites, -⟩
      refine ⟨hcut, .inr ⟨?_, fun label' htext' => absurd ⟨label', htext'⟩ hwell⟩⟩
      intro label' hpre
      have hle := length_asciiChars_le (isPrefix_longest _ hmax (htext ▸ hpre))
      omega
    · rintro ⟨-, hfits | ⟨hfits, -⟩⟩
      · exact absurd hfits hascii
      · have hbound := hfits label (by rw [htext]; exact List.prefix_append _ _)
        exact ⟨hreads, by omega, fun _ => hvalue⟩

/-- A leading byte alone, in a text of one byte. -/
theorem guarded_iff_leading :
    Guarded ⟨[0xC3], fun _ => 0⟩ ↔ ¬CutOff [0xC3] ∧ FitsOutput [0xC3] :=
  guarded_iff ⟨[0xC3], fun _ => 0⟩ (by decide)

/-- The byte behind the text is read, though the text is only a leading byte. -/
theorem exists_not_guarded :
    ¬∀ input : Input, input.text.length ≤ 62 →
      (∀ i ∈ (utf8ToPunycode input).reads, i < input.text.length) ∧
        (∀ i ∈ (utf8ToPunycode input).writes, i < outputCapacity) ∧
        ((¬∃ label, input.text = utf8 label) → (utf8ToPunycode input).value = -1) := by
  intro h
  have hread := (h ⟨[0xC3], fun _ => 0⟩ (by decide)).1 1 (by decide)
  exact absurd hread (by decide)

/-- Sixty letters and `ü` are written up to the end of the fourth byte past the capacity. -/
example : (utf8ToPunycode ⟨List.replicate 60 0x61 ++ [0xC3, 0xBC], fun _ => 0⟩).output.length = 67 := by
  decide +kernel

end Webpp.Uri.Punycodes
