import Webpp.Text.TokenizerWords

/-!
# The tokens without quotes

`next` has a loop of its own where there are neither quotes nor options. It yields what the other
loop yields without quotes, also in turn with it. With an option `next` takes the other loop, and
its default for the quotes is the NUL: a NUL opens a section, and the delimiters up to the next one
are not seen.
-/

namespace Webpp.Text.Tokenizer

open Loop

/-- No quotes. -/
def noQuotes (_ : Char) : Bool := false

variable {delims : Char → Bool} {text rest word : List Char} {cuts : List (Char × List Char)}

/-! ## The words between the delimiters -/

theorem word_noQuotes (delims : Char → Bool) (text : List Char) :
    Word false delims noQuotes text (text.takeWhile fun c => !delims c)
      (text.dropWhile fun c => !delims c) := by
  induction text with
  | nil => exact .nil
  | cons c text ih =>
      cases hd : delims c with
      | true =>
          rw [List.takeWhile_cons_of_neg (by simp [hd]), List.dropWhile_cons_of_neg (by simp [hd])]
          exact .delim hd
      | false =>
          rw [List.takeWhile_cons_of_pos (by simp [hd]), List.dropWhile_cons_of_pos (by simp [hd])]
          exact .char hd rfl ih

theorem Word.noQuotes_free (h : Word false delims noQuotes text word rest) :
    ∀ c ∈ word, delims c = false := by
  obtain ⟨rfl, -⟩ := h.unique (word_noQuotes delims text)
  intro c hc
  have hnot := List.mem_takeWhile_imp hc
  simpa using hnot

/-! ## Calls of both loops in turn -/

/-- The `i`-th call takes the one loop or the other. -/
def mixedCalls (quick : ℕ → Bool) (delims : Char → Bool) :
    ℕ → StringTokenizer → Except Fault (Bool × StringTokenizer) :=
  fun i => if quick i then next .none delims else nextQuoted .none delims noQuotes

section Mixed

variable {quick : ℕ → Bool} {tokens : List (List Char)} {before before' : List Char} {d : Char}
  {i : ℕ}

theorem quickNext_cons_of_delim (hd : delims d = true) (before before' : List Char)
    (isDelim isDelim' : Bool) :
    (quickNext delims ⟨before, d :: text, isDelim⟩ =
        quickNext delims ⟨before', text, isDelim'⟩) ∨
      ((quickNext delims ⟨before, d :: text, isDelim⟩).1 = false ∧
        (quickNext delims ⟨before', text, isDelim'⟩).1 = false) := by
  rw [quickNext, quickNext, List.dropWhile_cons_of_pos hd]
  dsimp only
  cases text.dropWhile delims with
  | nil => exact .inr ⟨rfl, rfl⟩
  | cons c rest => exact .inl rfl

theorem quickNext_word (hword : Word false delims noQuotes text word rest) (hne : word ≠ [])
    (isDelim : Bool) :
    quickNext delims ⟨before, text, isDelim⟩ = (true, ⟨text, rest, false⟩) := by
  obtain ⟨rfl, rfl⟩ := hword.unique (word_noQuotes delims text)
  cases text with
  | nil => exact absurd rfl hne
  | cons c text =>
      cases hc : delims c with
      | true => exact absurd (List.takeWhile_cons_of_neg (by simp [hc])) hne
      | false =>
          rw [quickNext, List.dropWhile_cons_of_neg (by simp [hc]),
            List.dropWhile_cons_of_pos (by simp [hc])]

theorem mixedCalls_end (quick : ℕ → Bool) (delims : Char → Bool) (i : ℕ) (before : List Char) :
    ∃ t, mixedCalls quick delims i ⟨before, [], false⟩ = .ok (false, t) := by
  rw [mixedCalls]
  split_ifs
  · exact ⟨_, rfl⟩
  · exact ⟨_, ends_end.fullNext⟩

theorem mixedCalls_word (hword : Word false delims noQuotes text word rest) (hne : word ≠ [])
    (before : List Char) :
    mixedCalls quick delims i ⟨before, text, true⟩ = .ok (true, ⟨text, rest, false⟩) := by
  rw [mixedCalls]
  split_ifs
  · rw [next, if_pos rfl, quickNext_word hword hne]
  · exact fullNext_word rfl hword (.inr hne) before

theorem mixedCalls_empty (hword : Word false delims noQuotes text [] rest) :
    mixedCalls quick delims i ⟨before, text, true⟩ =
      mixedCalls quick delims i ⟨before', rest, false⟩ := by
  rw [mixedCalls]
  split_ifs
  · have hrest := hword.append
    rw [List.nil_append] at hrest
    rw [hrest]
    rfl
  · exact fullNext_empty rfl rfl hword before before'

theorem Yields.mixed_delim (hd : delims d = true)
    (h : Yields (mixedCalls quick delims) i ⟨before', text, true⟩ tokens) :
    Yields (mixedCalls quick delims) i ⟨before, d :: text, false⟩ tokens := by
  cases hquick : quick i with
  | true =>
      have hcall : ∀ t, mixedCalls quick delims i t = .ok (quickNext delims t) := fun t => by
        rw [mixedCalls, hquick, if_pos rfl, next, if_pos rfl]
      rcases quickNext_cons_of_delim hd before before' false true with heq | ⟨hfalse, hfalse'⟩
      · exact h.of_eq (by rw [hcall, hcall, heq])
      · have hdone : ∀ t, (quickNext delims t).1 = false →
            Yields (mixedCalls quick delims) i t [] := fun t ht =>
          .done ((hcall t).trans (by rw [← ht]))
        rw [h.unique (hdone _ hfalse')]
        exact hdone _ hfalse
  | false =>
      refine h.of_eq ?_
      rw [mixedCalls, hquick, if_neg Bool.false_ne_true]
      exact fullNext_delim rfl rfl before before' d text

theorem yields_mixed_word (hword : Word false delims noQuotes text word rest)
    (hrest : ∀ i before, Yields (mixedCalls quick delims) i ⟨before, rest, false⟩ tokens)
    (i : ℕ) (before : List Char) :
    Yields (mixedCalls quick delims) i ⟨before, text, true⟩ (nonEmpty [word] ++ tokens) :=
  Yields.of_word hword (fun hne => mixedCalls_word hword hne before)
    (fun hnil => mixedCalls_empty (hnil ▸ hword)) hrest

theorem yields_mixed (h : Behind false delims noQuotes text cuts)
    (hhead : ∀ d ∈ text.head?, delims d = true) :
    ∀ i before, Yields (mixedCalls quick delims) i ⟨before, text, false⟩
      (nonEmpty (cuts.map Prod.snd)) := by
  induction h with
  | nil =>
      intro i before
      obtain ⟨t, ht⟩ := mixedCalls_end quick delims i before
      exact .done ht
  | @cons d text word rest cuts hword hrest ih =>
      intro i before
      rw [List.map_cons, nonEmpty_cons]
      exact (yields_mixed_word hword (ih hword.head?_rest) i []).mixed_delim (hhead d rfl)

end Mixed

/-! ## Sections without delimiters -/

variable {quotes : Char → Bool}

/-- No delimiter stands in a quoted section. -/
inductive SectionsFree (delims quotes : Char → Bool) : List Char → Prop where
  | nil : SectionsFree delims quotes []
  | char {c : Char} {text : List Char} (hc : delims c = true ∨ quotes c = false)
      (hrest : SectionsFree delims quotes text) : SectionsFree delims quotes (c :: text)
  | quote {c : Char} {text quoted behind : List Char} (hd : delims c = false)
      (hq : quotes c = true) (hsection : QuotedSection false c text quoted behind)
      (hfree : ∀ q ∈ quoted, delims q = false) (hrest : SectionsFree delims quotes behind) :
      SectionsFree delims quotes (c :: text)

theorem Word.sectionsFree_iff (h : Word false delims quotes text word rest) :
    SectionsFree delims quotes text ↔
      (∀ c ∈ word, delims c = false) ∧ SectionsFree delims quotes rest := by
  induction h with
  | nil => simp
  | delim => simp
  | @char c text word rest hd hq _ ih =>
      rw [List.forall_mem_cons, and_assoc, ← ih, and_iff_right hd]
      constructor
      · intro hfree
        cases hfree with
        | char _ hrest => exact hrest
        | quote _ hq' => cases hq.symm.trans hq'
      · exact .char (.inr hq)
  | @quote c text quoted behind word rest hd hq hsection _ ih =>
      rw [List.forall_mem_cons, List.forall_mem_append, and_iff_right hd, and_assoc, ← ih]
      constructor
      · intro hfree
        cases hfree with
        | char hc =>
            rcases hc with hd' | hq'
            · cases hd.symm.trans hd'
            · cases hq.symm.trans hq'
        | quote _ _ hsection' hquoted hrest =>
            obtain ⟨rfl, rfl⟩ := hsection'.unique hsection
            exact ⟨hquoted, hrest⟩
      · exact fun hboth => .quote hd hq hsection hboth.1 hboth.2

theorem Behind.sectionsFree_iff (h : Behind false delims quotes text cuts)
    (hhead : ∀ d ∈ text.head?, delims d = true) :
    SectionsFree delims quotes text ↔ ∀ cut ∈ cuts, ∀ c ∈ cut.2, delims c = false := by
  induction h with
  | nil => simpa using SectionsFree.nil
  | @cons d text word rest cuts hword _ ih =>
      rw [List.forall_mem_cons, ← ih hword.head?_rest, ← hword.sectionsFree_iff]
      constructor
      · intro hfree
        cases hfree with
        | char _ hrest => exact hrest
        | quote hd => cases hd.symm.trans (hhead d rfl)
      · exact .char (.inl (hhead d rfl))

theorem Cuts.sectionsFree_iff (h : Cuts false delims quotes text word cuts) :
    SectionsFree delims quotes text ↔
      ∀ w ∈ word :: cuts.map Prod.snd, ∀ c ∈ w, delims c = false := by
  obtain ⟨rest, hword, hbehind⟩ := h
  rw [hword.sectionsFree_iff, hbehind.sectionsFree_iff hword.head?_rest, List.forall_mem_cons,
    List.forall_mem_map]

/-- A word without delimiters is a word without quotes. -/
theorem Word.of_free (h : Word false delims quotes text word rest)
    (hfree : ∀ c ∈ word, delims c = false) : Word false delims noQuotes text word rest := by
  rw [h.append]
  have hrest := h.rest_eq
  clear h
  induction word with
  | nil =>
      rcases hrest with rfl | ⟨d, text', rfl, hd⟩
      · exact .nil
      · exact .delim hd
  | cons c word ih =>
      rw [List.forall_mem_cons] at hfree
      exact .char hfree.1 rfl (ih hfree.2)

theorem Behind.of_free (h : Behind false delims quotes text cuts)
    (hfree : ∀ cut ∈ cuts, ∀ c ∈ cut.2, delims c = false) :
    Behind false delims noQuotes text cuts := by
  induction h with
  | nil => exact .nil
  | cons hword _ ih =>
      rw [List.forall_mem_cons] at hfree
      exact .cons (hword.of_free hfree.1) (ih hfree.2)

theorem Cuts.of_free (h : Cuts false delims quotes text word cuts)
    (hfree : ∀ w ∈ word :: cuts.map Prod.snd, ∀ c ∈ w, delims c = false) :
    Cuts false delims noQuotes text word cuts := by
  obtain ⟨rest, hword, hbehind⟩ := h
  rw [List.forall_mem_cons, List.forall_mem_map] at hfree
  exact ⟨rest, hword.of_free hfree.1, hbehind.of_free hfree.2⟩

/-! ## All texts -/

/-- The words that are not empty, and the delimiters between them. -/
def withDelims (word : List Char) (cuts : List (Char × List Char)) : List (List Char) :=
  nonEmpty [word] ++ cuts.flatMap fun cut => [cut.1] :: nonEmpty [cut.2]

/-- Without quotes both loops yield the words between the delimiters, also in turn, and with the
option for delimiters `next` yields these and the delimiters. -/
def SameTokens (delims : Char → Bool) (text : List Char) : Prop :=
  ∃ word cuts, Cuts false delims noQuotes text word cuts ∧
    (∀ quick, Yields (mixedCalls quick delims) 0 (.ofString text)
      (nonEmpty (word :: cuts.map Prod.snd))) ∧
    Yields (fun _ => next .delims delims) 0 (.ofString text) (withDelims word cuts)

theorem yields_mixed_of_cuts (h : Cuts false delims noQuotes text word cuts)
    (quick : ℕ → Bool) :
    Yields (mixedCalls quick delims) 0 (.ofString text) (nonEmpty (word :: cuts.map Prod.snd)) := by
  obtain ⟨rest, hword, hbehind⟩ := h
  rw [nonEmpty_cons]
  exact yields_mixed_word hword (yields_mixed hbehind hword.head?_rest) 0 text

theorem yields_withDelims (h : Cuts false delims nullChar text word cuts) :
    Yields (fun _ => next .delims delims) 0 (.ofString text) (withDelims word cuts) := by
  obtain ⟨rest, hword, hbehind⟩ := h
  exact yields_word rfl rfl hword (yields_delims hbehind) 0 text

theorem mem_nonEmpty {w : List Char} {words : List (List Char)} :
    w ∈ nonEmpty words ↔ w ∈ words ∧ w ≠ [] := by
  simp [nonEmpty]

theorem mem_withDelims {w : List Char} :
    w ∈ withDelims word cuts ↔
      (w ∈ word :: cuts.map Prod.snd ∧ w ≠ []) ∨ ∃ cut ∈ cuts, w = [cut.1] := by
  simp only [withDelims, List.mem_append, mem_nonEmpty, List.mem_flatMap, List.mem_cons,
    List.mem_map, List.not_mem_nil, or_false]
  constructor
  · rintro (⟨rfl, hne⟩ | ⟨cut, hcut, rfl | ⟨rfl, hne⟩⟩)
    · exact .inl ⟨.inl rfl, hne⟩
    · exact .inr ⟨cut, hcut, rfl⟩
    · exact .inl ⟨.inr ⟨cut, hcut, rfl⟩, hne⟩
  · rintro (⟨rfl | ⟨cut, hcut, rfl⟩, hne⟩ | ⟨cut, hcut, rfl⟩)
    · exact .inl ⟨rfl, hne⟩
    · exact .inr ⟨cut, hcut, .inr ⟨rfl, hne⟩⟩
    · exact .inr ⟨cut, hcut, .inl rfl⟩

theorem Behind.forall_words {P : List Char → Prop} (h : Behind false delims quotes text cuts)
    (hP : ∀ {text word rest}, Word false delims quotes text word rest → P word) :
    ∀ cut ∈ cuts, P cut.2 := by
  induction h with
  | nil => simp
  | cons hword _ ih => exact List.forall_mem_cons.2 ⟨hP hword, ih⟩

theorem Cuts.forall_words {P : List Char → Prop} (h : Cuts false delims quotes text word cuts)
    (hP : ∀ {text word rest}, Word false delims quotes text word rest → P word) :
    ∀ w ∈ word :: cuts.map Prod.snd, P w := by
  obtain ⟨rest, hword, hbehind⟩ := h
  rw [List.forall_mem_cons, List.forall_mem_map]
  exact ⟨hP hword, hbehind.forall_words hP⟩

theorem Behind.forall_delims (h : Behind false delims quotes text cuts)
    (hhead : ∀ d ∈ text.head?, delims d = true) : ∀ cut ∈ cuts, delims cut.1 = true := by
  induction h with
  | nil => simp
  | @cons d _ _ _ _ hword _ ih => exact List.forall_mem_cons.2 ⟨hhead d rfl, ih hword.head?_rest⟩

theorem Cuts.forall_delims (h : Cuts false delims quotes text word cuts) :
    ∀ cut ∈ cuts, delims cut.1 = true := by
  obtain ⟨rest, hword, hbehind⟩ := h
  exact hbehind.forall_delims hword.head?_rest

/-- The words cut with quotes have no delimiter if all tokens are those without quotes. -/
theorem Cuts.free_of_withDelims {word' : List Char} {cuts' : List (Char × List Char)}
    (h : Cuts false delims quotes text word cuts)
    (hplain : Cuts false delims noQuotes text word' cuts')
    (heq : withDelims word cuts = withDelims word' cuts') :
    ∀ w ∈ word :: cuts.map Prod.snd, ∀ c ∈ w, delims c = false := by
  intro w hw c hc
  have hmem : w ∈ withDelims word' cuts' :=
    heq ▸ mem_withDelims.2 (.inl ⟨hw, List.ne_nil_of_mem hc⟩)
  rcases mem_withDelims.1 hmem with ⟨hplainword, -⟩ | ⟨cut, hcut, rfl⟩
  · exact hplain.forall_words (fun hword => hword.noQuotes_free) w hplainword c hc
  · -- a token of a delimiter alone is no word
    have hhead : delims cut.1 = false :=
      h.forall_words (P := fun w => ∀ c, w.head? = some c → delims c = false)
        (fun hword c => hword.head_ne) _ hw cut.1 rfl
    cases hhead.symm.trans (hplain.forall_delims cut hcut)

/-- All loops yield the same tokens exactly if no delimiter stands between a NUL and the next one
that is not in a pair, where the NUL is no delimiter. -/
theorem sameTokens_iff (delims : Char → Bool) (text : List Char) :
    SameTokens delims text ↔ SectionsFree delims nullChar text := by
  obtain ⟨word, cuts, hcuts⟩ := exists_cuts delims nullChar text
  rw [hcuts.sectionsFree_iff]
  constructor
  · rintro ⟨word', cuts', hplain, -, hyields⟩
    exact hcuts.free_of_withDelims hplain ((yields_withDelims hcuts).unique hyields)
  · intro hfree
    have hplain := hcuts.of_free hfree
    exact ⟨word, cuts, hplain, yields_mixed_of_cuts hplain, yields_withDelims hcuts⟩

/-- A NUL in front of `,b` hides the delimiter. -/
theorem not_sameTokens_nul : ¬ SameTokens (· == ',') ['\x00', ',', 'b'] := by
  rintro ⟨word, cuts, hplain, -, hyields⟩
  have hcuts : Cuts false (· == ',') nullChar ['\x00', ',', 'b'] ['\x00', ',', 'b'] [] :=
    ⟨[], .quote rfl rfl (.char (by decide) (by decide) (.char (by decide) (by decide) .unclosed))
      .nil, .nil⟩
  have hcut : Cuts false (· == ',') noQuotes ['\x00', ',', 'b'] ['\x00'] [(',', ['b'])] :=
    ⟨[',', 'b'], .char rfl rfl (.delim rfl), .cons (.char rfl rfl .nil) .nil⟩
  obtain ⟨rfl, rfl⟩ := hplain.unique hcut
  exact absurd ((yields_withDelims hcuts).unique hyields) (by decide)

end Webpp.Text.Tokenizer
