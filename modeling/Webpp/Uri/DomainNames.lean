import Webpp.Uri.DomainReads

/-!
# Domain names

What a domain name is, and where `parse_domain_name` finds one: a label before a dot is counted
with its dot, and a label of punycode may end with a hyphen.
-/

namespace Webpp.Uri

variable {label : List Char} {hasPunycode : Bool}

/-- 1 to 63 letters, digits and hyphens, none of these at an end, and two in a row only behind
the mark of punycode. -/
structure IsLabel (label : List Char) : Prop where
  ne_nil : label ≠ []
  length : label.length ≤ 63
  chars : ∀ c ∈ label, isLabelChar c = true
  first : label.head? ≠ some '-'
  last : label.getLast? ≠ some '-'
  hyphens : ['-', '-'] <:+: label → punycodeMark <+: label

structure IsDomainName (text : List Char) : Prop where
  length : 1 ≤ text.length ∧ text.length ≤ 255
  labels : ∀ label ∈ text.splitOn '.', IsLabel label

def HasPunycode (text : List Char) : Prop := ∃ label ∈ text.splitOn '.', punycodeMark <+: label

/-- A label with a hyphen at its end that is let through all the same: one of punycode, with
something behind the mark where it is the last label, or `xn-` before a dot. -/
structure LooseLabel (dotBehind : Bool) (label : List Char) : Prop where
  length : label.length + dotBehind.toNat ≤ 63
  chars : ∀ c ∈ label, isLabelChar c = true
  last : label.getLast? = some '-'
  mark : punycodeMark <+: label ∧ (dotBehind = true ∨ 5 ≤ label.length) ∨
    dotBehind = true ∧ label = ['x', 'n', '-']

/-- A label that is let through. -/
def PassedLabel (dotBehind : Bool) (label : List Char) : Prop :=
  IsLabel label ∧ label.length + dotBehind.toNat ≤ 63 ∨ LooseLabel dotBehind label

def AllPassed : List (List Char) → Prop
  | [] => False
  | [label] => PassedLabel false label
  | label :: label' :: labels => PassedLabel true label ∧ AllPassed (label' :: labels)

/-! ## Plain labels -/

/-- What is behind a hyphen, with it. -/
def behindHyphen (hyphen : Bool) (label : List Char) : List Char :=
  if hyphen then '-' :: label else label

theorem infix_cons_of_ne {c : Char} (hc : c ≠ '-') (label : List Char) :
    ['-', '-'] <:+: c :: label ↔ ['-', '-'] <:+: label := by
  rw [List.infix_cons_iff, List.cons_prefix_cons]
  exact or_iff_right fun h => hc h.1.symm

theorem infix_behindHyphen {c : Char} (hc : c ≠ '-') (hyphen : Bool) (label : List Char) :
    ['-', '-'] <:+: behindHyphen hyphen (c :: label) ↔ ['-', '-'] <:+: label := by
  cases hyphen with
  | true =>
      refine Iff.trans ?_ (infix_cons_of_ne hc label)
      rw [behindHyphen, if_pos rfl, List.infix_cons_iff, List.cons_prefix_cons,
        List.cons_prefix_cons]
      exact or_iff_right fun h => hc h.2.1.symm
  | false => exact infix_cons_of_ne hc label

theorem getLast?_behindHyphen {c : Char} (hc : c ≠ '-') (hyphen : Bool) (label : List Char) :
    (behindHyphen hyphen (c :: label)).getLast? = some '-' ↔ label.getLast? = some '-' := by
  have hcons : (behindHyphen hyphen (c :: label)).getLast? = (c :: label).getLast? := by
    cases hyphen with
    | true => exact List.getLast?_cons_cons
    | false => rfl
  rw [hcons, List.getLast?_cons]
  cases label.getLast? with
  | none => exact iff_of_false (fun h => hc (Option.some.inj h)) (fun h => nomatch h)
  | some d => rfl

theorem plainScan_iff (hyphen : Bool) (label : List Char) :
    plainScan hyphen label = true ↔ (∀ c ∈ label, isLabelChar c = true) ∧
      ¬ ['-', '-'] <:+: behindHyphen hyphen label ∧
      (behindHyphen hyphen label).getLast? ≠ some '-' := by
  induction label generalizing hyphen with
  | nil =>
      cases hyphen with
      | true => simp [plainScan, behindHyphen]
      | false => simp [plainScan, behindHyphen]
  | cons c label ih =>
      rw [List.forall_mem_cons]
      by_cases halpha : alphaDigit.contains c = true
      · have hc : c ≠ '-' := by
          rintro rfl
          exact absurd halpha (by decide)
        have hchar : isLabelChar c = true := by rw [isLabelChar, halpha, Bool.true_or]
        rw [plainScan_alpha halpha, ih, infix_behindHyphen hc, ne_eq, ne_eq,
          getLast?_behindHyphen hc, and_iff_right hchar]
        rfl
      · by_cases hhyphen : c = '-'
        · subst hhyphen
          rw [plainScan_hyphen, and_iff_right (show isLabelChar '-' = true by decide)]
          cases hyphen with
          | true =>
              refine iff_of_false Bool.false_ne_true fun h => h.2.1 ?_
              exact List.IsPrefix.isInfix (List.prefix_append ['-', '-'] label)
          | false => exact ih true
        · have hinvalid : isLabelChar c = false := by
            rw [isLabelChar, Bool.or_eq_false_iff, decide_eq_false_iff_not]
            exact ⟨Bool.eq_false_iff.mpr halpha, hhyphen⟩
          rw [plainScan_invalid hinvalid, hinvalid]
          exact iff_of_false Bool.false_ne_true fun h => Bool.false_ne_true h.1.1

/-! ## Labels that are let through -/

/-- The number of characters that are sure to be behind a label. -/
def charsBehind (dotBehind : Bool) : ℕ := if dotBehind then 2 else 0

theorem labelPasses_of_two_le {behind : ℕ} (h : 2 ≤ behind) (label : List Char) :
    labelPasses behind label = labelPasses (charsBehind true) label := by
  have hlength : punycodeMark <+: label → 4 ≤ label.length := fun hmark => hmark.length_le
  have hmark : (punycodeMark <+: label ∧ 4 < label.length + behind) ↔
      (punycodeMark <+: label ∧ 4 < label.length + charsBehind true) := by
    refine and_congr_right fun hmark => iff_of_true ?_ ?_
    · have hle := hlength hmark
      omega
    · have hle := hlength hmark
      rw [charsBehind, if_pos rfl]
      omega
  rw [labelPasses, labelPasses, decide_eq_true h, decide_eq_true (show 2 ≤ charsBehind true from
    Nat.le_refl 2)]
  by_cases hcase : punycodeMark <+: label ∧ 4 < label.length + behind
  · rw [if_pos hcase, if_pos (hmark.mp hcase)]
  · rw [if_neg hcase, if_neg fun h => hcase (hmark.mpr h)]

theorem LooseLabel.passes {dotBehind : Bool} (h : LooseLabel dotBehind label) :
    label ≠ [] ∧ label.head? ≠ some '-' ∧ labelPasses (charsBehind dotBehind) label = true := by
  refine ⟨?_, ?_, ?_⟩
  · rintro rfl
    exact absurd h.last (by simp)
  · rcases h.mark with ⟨⟨after, rfl⟩, -⟩ | ⟨-, rfl⟩
    · exact fun hhead => absurd (Option.some.inj hhead) (by decide)
    · decide
  · rw [labelPasses]
    rcases h.mark with ⟨hmark, hlong⟩ | ⟨hdot, rfl⟩
    · have hle : 4 ≤ label.length := hmark.length_le
      have hlength : 4 < label.length + charsBehind dotBehind := by
        rcases hlong with rfl | hlong
        · rw [charsBehind, if_pos rfl]
          omega
        · omega
      rw [if_pos ⟨hmark, hlength⟩]
      exact List.all_eq_true.mpr h.chars
    · rw [hdot]
      decide

theorem IsLabel.passes (h : IsLabel label) (dotBehind : Bool) :
    labelPasses (charsBehind dotBehind) label = true := by
  rw [labelPasses]
  split_ifs with hmark
  · exact List.all_eq_true.mpr h.chars
  · have hplain : plainScan false label = true := by
      refine (plainScan_iff false label).mpr ⟨h.chars, fun hpair => ?_, h.last⟩
      have hprefix := h.hyphens hpair
      obtain ⟨after, rfl⟩ := hprefix
      have hshort := not_and.mp hmark (List.prefix_append _ _)
      rw [List.length_append, punycodeMark, List.length_cons, List.length_cons, List.length_cons,
        List.length_cons, List.length_nil] at hshort
      have hnil : after = [] := List.length_eq_zero_iff.mp (by omega)
      rw [hnil] at h
      exact h.last rfl
    rw [hplain, Bool.true_or]

theorem passedLabel_iff (dotBehind : Bool) (label : List Char) :
    PassedLabel dotBehind label ↔ label ≠ [] ∧ label.head? ≠ some '-' ∧
      label.length + dotBehind.toNat ≤ 63 ∧ labelPasses (charsBehind dotBehind) label = true := by
  constructor
  · rintro (⟨hlabel, hlength⟩ | hloose)
    · exact ⟨hlabel.ne_nil, hlabel.first, hlength, hlabel.passes dotBehind⟩
    · obtain ⟨hne, hfirst, hpasses⟩ := hloose.passes
      exact ⟨hne, hfirst, hloose.length, hpasses⟩
  · rintro ⟨hne, hfirst, hlength, hpasses⟩
    have hle : label.length ≤ 63 := Nat.le_trans (Nat.le_add_right _ _) hlength
    rw [labelPasses] at hpasses
    split_ifs at hpasses with hmark
    · have hchars := List.all_eq_true.mp hpasses
      by_cases hlast : label.getLast? = some '-'
      · refine .inr ⟨hlength, hchars, hlast, .inl ⟨hmark.1, ?_⟩⟩
        cases dotBehind with
        | true => exact .inl rfl
        | false => exact .inr hmark.2
      · exact .inl ⟨⟨hne, hle, hchars, hfirst, hlast, fun _ => hmark.1⟩, hlength⟩
    · rcases Bool.or_eq_true_iff.mp hpasses with hplain | hhalf
      · obtain ⟨hchars, hpair, hlast⟩ := (plainScan_iff false label).mp hplain
        exact .inl ⟨⟨hne, hle, hchars, hfirst, hlast, fun h => (hpair h).elim⟩, hlength⟩
      · rw [Bool.and_eq_true, decide_eq_true_iff, decide_eq_true_iff] at hhalf
        obtain ⟨rfl, hbehind⟩ := hhalf
        cases dotBehind with
        | true => exact .inr ⟨hlength, by decide, rfl, .inr ⟨rfl, rfl⟩⟩
        | false => exact absurd hbehind (by decide)

/-! ## The whole name -/

theorem allPassed_cons {labels : List (List Char)} (h : labels ≠ []) :
    AllPassed (label :: labels) ↔ PassedLabel true label ∧ AllPassed labels := by
  cases labels with
  | nil => exact (h rfl).elim
  | cons label' labels => exact Iff.rfl

theorem splitOn_dot (text : List Char) :
    '.' ∉ text ∧ text.splitOn '.' = [text] ∨
      ∃ label rest, text = label ++ '.' :: rest ∧ '.' ∉ label ∧
        text.splitOn '.' = label :: rest.splitOn '.' := by
  by_cases hdot : '.' ∈ text
  · obtain ⟨label, rest, rfl, hlabel⟩ := List.eq_append_cons_of_mem hdot
    refine .inr ⟨label, rest, rfl, hlabel, ?_⟩
    rw [List.splitOn_append_cons_self, List.splitOn_eq_singleton hlabel, List.singleton_append]
  · exact .inl ⟨hdot, List.splitOn_eq_singleton hdot⟩

theorem AllPassed.start {text : List Char} (h : AllPassed (text.splitOn '.')) :
    text ≠ [] ∧ text.head? ≠ some '.' ∧ text.head? ≠ some '-' := by
  rcases splitOn_dot text with ⟨hdot, hsplit⟩ | ⟨label, rest, rfl, hdot, hsplit⟩
  · rw [hsplit] at h
    obtain ⟨hne, hfirst, -⟩ := (passedLabel_iff false text).mp h
    refine ⟨hne, fun hhead => hdot ?_, hfirst⟩
    exact List.mem_of_mem_head? hhead
  · rw [hsplit, allPassed_cons (List.splitOn_ne_nil '.' rest)] at h
    obtain ⟨hne, hfirst, -⟩ := (passedLabel_iff true label).mp h.1
    obtain ⟨c, label, rfl⟩ := List.exists_cons_of_ne_nil hne
    refine ⟨List.cons_ne_nil _ _, fun hhead => hdot ?_, hfirst⟩
    exact List.mem_of_mem_head? hhead

/-- A valid name with or without punycode. -/
def validStatus (hasPunycode : Bool) : DomainNameStatus :=
  if hasPunycode then .validPunycode else .valid

instance (text : List Char) : Decidable (HasPunycode text) :=
  inferInstanceAs (Decidable (∃ label ∈ text.splitOn '.', punycodeMark <+: label))

theorem domainLoop_nil (m startLen : ℕ) (hasPunycode : Bool) :
    domainLoop m [] startLen hasPunycode =
      if startLen > subdomainThreshold then .subdomainTooLong else validStatus hasPunycode := by
  cases m with
  | zero => rfl
  | succ m => rfl

theorem domainLoop_dot {rest : List Char} {m startLen : ℕ}
    (hrest : rest ≠ [] ∧ rest.head? ≠ some '.' ∧ rest.head? ≠ some '-')
    (hlength : startLen - rest.length ≤ 63) :
    domainLoop (m + 1) ('.' :: rest) startLen hasPunycode =
      domainLoop m rest rest.length hasPunycode := by
  have hthreshold : ¬ startLen - rest.length > subdomainThreshold := Nat.not_lt.mpr hlength
  rw [domainLoop_switch (punycodeStart_of_ne (by decide)), switchRound, domainSwitch,
    if_neg hrest.1, if_neg hrest.2.1, if_neg hrest.2.2, if_neg hthreshold]

theorem domainLoop_dot_fails {rest : List Char} {m startLen : ℕ}
    (h : ¬ (rest ≠ [] ∧ rest.head? ≠ some '.' ∧ rest.head? ≠ some '-') ∨
      63 < startLen - rest.length) :
    (domainLoop (m + 1) ('.' :: rest) startLen hasPunycode).isValid = false := by
  rw [domainLoop_switch (punycodeStart_of_ne (by decide)), switchRound, domainSwitch]
  by_cases hnil : rest = []
  · rw [if_pos hnil]
    rfl
  · rw [if_neg hnil]
    by_cases hdot : rest.head? = some '.'
    · rw [if_pos hdot]
      rfl
    · rw [if_neg hdot]
      by_cases hhyphen : rest.head? = some '-'
      · rw [if_pos hhyphen]
        rfl
      · have hthreshold : startLen - rest.length > subdomainThreshold :=
          h.resolve_left fun hnot => hnot ⟨hnil, hdot, hhyphen⟩
        rw [if_neg hhyphen, if_pos hthreshold]
        rfl

theorem validStatus_isValid (hasPunycode : Bool) : (validStatus hasPunycode).isValid = true := by
  cases hasPunycode with
  | true => rfl
  | false => rfl

theorem domainLoop_last {text : List Char} {n : ℕ} (hn : text.length ≤ n)
    (hne : text ≠ []) (hhyphen : text.head? ≠ some '-') (hdot : '.' ∉ text) :
    (PassedLabel false text → domainLoop n text text.length hasPunycode =
        validStatus (hasPunycode || decide (punycodeMark <+: text))) ∧
      (¬ PassedLabel false text →
        (domainLoop n text text.length hasPunycode).isValid = false) := by
  have hparsed : LabelParsed (labelPasses 0 text) [] text.length
      (hasPunycode || decide (punycodeMark <+: text))
      (domainLoop n (text ++ []) text.length hasPunycode) :=
    domainLoop_start hdot (.inl rfl) hne (by rwa [List.append_nil])
  rw [List.append_nil] at hparsed
  rw [passedLabel_iff, and_iff_right hne, and_iff_right hhyphen]
  by_cases hpasses : labelPasses 0 text = true
  · obtain ⟨m, -, hend⟩ := hparsed.passed hpasses
    rw [hend, domainLoop_nil]
    constructor
    · rintro ⟨hlength, -⟩
      exact if_neg (Nat.not_lt.mpr hlength)
    · intro hnot
      have hlength : text.length > subdomainThreshold :=
        Nat.lt_of_not_le fun hle => hnot ⟨hle, hpasses⟩
      rw [if_pos hlength]
      rfl
  · exact ⟨fun h => absurd h.2 hpasses,
      fun _ => hparsed.failed (Bool.eq_false_iff.mpr hpasses)⟩

theorem hasPunycode_append {label rest : List Char} (hdot : '.' ∉ label) :
    HasPunycode (label ++ '.' :: rest) ↔ punycodeMark <+: label ∨ HasPunycode rest := by
  rw [HasPunycode, List.splitOn_append_cons_self, List.splitOn_eq_singleton hdot,
    List.singleton_append, List.exists_mem_cons_iff]
  exact Iff.rfl

theorem AllPassed.first {label rest : List Char} (h : AllPassed (label :: rest.splitOn '.')) :
    labelPasses ('.' :: rest).length label = true ∧ label.length + 1 ≤ 63 ∧
      AllPassed (rest.splitOn '.') := by
  rw [allPassed_cons (List.splitOn_ne_nil '.' rest)] at h
  obtain ⟨-, -, hlength, hpasses⟩ := (passedLabel_iff true label).mp h.1
  have hrest : 1 ≤ rest.length := List.length_pos_iff.mpr h.2.start.1
  have htwo : 2 ≤ ('.' :: rest).length := Nat.succ_le_succ hrest
  rw [labelPasses_of_two_le htwo]
  exact ⟨hpasses, hlength, h.2⟩

theorem domainLoop_labels (n : ℕ) (text : List Char) (hasPunycode : Bool)
    (hn : text.length ≤ n)
    (hstart : text ≠ [] ∧ text.head? ≠ some '.' ∧ text.head? ≠ some '-') :
    (AllPassed (text.splitOn '.') → domainLoop n text text.length hasPunycode =
        validStatus (hasPunycode || decide (HasPunycode text))) ∧
      (¬ AllPassed (text.splitOn '.') →
        (domainLoop n text text.length hasPunycode).isValid = false) := by
  induction hlen : text.length using Nat.strong_induction_on generalizing text n hasPunycode with
  | _ length ih =>
      subst hlen
      obtain ⟨hne, hheaddot, hhyphen⟩ := hstart
      rcases splitOn_dot text with ⟨hdot, hsplit⟩ | ⟨label, rest, rfl, hdot, hsplit⟩
      · have hmark : HasPunycode text ↔ punycodeMark <+: text := by
          rw [HasPunycode, hsplit, List.exists_mem_cons_iff]
          exact or_iff_left fun h => absurd h.choose_spec.1 List.not_mem_nil
        rw [hsplit, decide_eq_decide.mpr hmark]
        exact domainLoop_last hn hne hhyphen hdot
      · obtain ⟨c, label, rfl⟩ : ∃ c label', label = c :: label' := by
          cases label with
          | nil => exact (hheaddot rfl).elim
          | cons c label => exact ⟨c, label, rfl⟩
        have hparsed : LabelParsed _ _ _ _ (domainLoop n (c :: label ++ '.' :: rest)
            (c :: label ++ '.' :: rest).length hasPunycode) :=
          domainLoop_start hdot (.inr ⟨rest, rfl⟩) (List.cons_ne_nil c label) hn
        have hfirst : AllPassed ((c :: label) :: rest.splitOn '.') →
            labelPasses ('.' :: rest).length (c :: label) = true := fun h => h.first.1
        have hlength : (c :: label ++ '.' :: rest).length =
            (c :: label).length + (rest.length + 1) := List.length_append
        have hcount : (c :: label ++ '.' :: rest).length - rest.length =
            (c :: label).length + 1 := by omega
        rw [hsplit]
        by_cases hpasses : labelPasses ('.' :: rest).length (c :: label) = true
        · obtain ⟨m, hm, hend⟩ := hparsed.passed hpasses
          rw [List.length_cons] at hm
          obtain ⟨m, rfl⟩ := Nat.exists_eq_add_of_le' (Nat.le_trans (Nat.le_add_left 1 _) hm)
          rw [hend]
          by_cases hgood : (rest ≠ [] ∧ rest.head? ≠ some '.' ∧ rest.head? ≠ some '-') ∧
              (c :: label).length + 1 ≤ 63
          · obtain ⟨hrest, hshort⟩ := hgood
            rw [domainLoop_dot hrest (by rw [hcount]; exact hshort)]
            obtain ⟨hall, hnot⟩ := ih rest.length (by omega) m rest
              (hasPunycode || decide (punycodeMark <+: c :: label))
              (Nat.le_of_succ_le_succ hm) hrest rfl
            have hlabel : PassedLabel true (c :: label) := by
              refine (passedLabel_iff true _).mpr ⟨List.cons_ne_nil c label, hhyphen, hshort, ?_⟩
              have htwo : 2 ≤ ('.' :: rest).length :=
                Nat.succ_le_succ (List.length_pos_iff.mpr hrest.1)
              rw [← labelPasses_of_two_le htwo]
              exact hpasses
            rw [allPassed_cons (List.splitOn_ne_nil '.' rest), and_iff_right hlabel,
              decide_eq_decide.mpr (hasPunycode_append hdot), Bool.decide_or, ← Bool.or_assoc]
            exact ⟨hall, hnot⟩
          · have hfails : ¬ AllPassed ((c :: label) :: rest.splitOn '.') := by
              intro h
              exact hgood ⟨h.first.2.2.start, h.first.2.1⟩
            refine ⟨fun h => absurd h hfails, fun _ => domainLoop_dot_fails ?_⟩
            rw [hcount]
            rcases not_and_or.mp hgood with hrest | hlong
            · exact .inl hrest
            · exact .inr (Nat.lt_of_not_le hlong)
        · exact ⟨fun h => absurd (hfirst h) hpasses,
            fun _ => hparsed.failed (Bool.eq_false_iff.mpr hpasses)⟩

theorem parseDomainName_passed (text : List Char) :
    (text.length ≤ 255 ∧ AllPassed (text.splitOn '.') →
        parseDomainName text = validStatus (decide (HasPunycode text))) ∧
      (¬ (text.length ≤ 255 ∧ AllPassed (text.splitOn '.')) →
        (parseDomainName text).isValid = false) := by
  cases text with
  | nil => exact ⟨fun h => (h.2.start.1 rfl).elim, fun _ => rfl⟩
  | cons c text =>
      rw [parseDomainName]
      by_cases hlength : (c :: text).length > domainNameThreshold
      · rw [if_pos hlength]
        exact ⟨fun h => absurd h.1 (Nat.not_le.mpr hlength), fun _ => rfl⟩
      · have hle : (c :: text).length ≤ 255 := Nat.le_of_not_lt hlength
        rw [if_neg hlength, and_iff_right hle]
        by_cases hdot : c = '.'
        · rw [if_pos hdot]
          exact ⟨fun h => (h.start.2.1 (congrArg some hdot)).elim, fun _ => rfl⟩
        · rw [if_neg hdot]
          by_cases hhyphen : c = '-'
          · rw [if_pos hhyphen]
            exact ⟨fun h => (h.start.2.2 (congrArg some hhyphen)).elim, fun _ => rfl⟩
          · rw [if_neg hhyphen]
            have hstart : c :: text ≠ [] ∧ (c :: text).head? ≠ some '.' ∧
                (c :: text).head? ≠ some '-' :=
              ⟨List.cons_ne_nil c text, fun h => hdot (Option.some.inj h),
                fun h => hhyphen (Option.some.inj h)⟩
            exact domainLoop_labels _ (c :: text) false (Nat.le_refl _) hstart

/-! ## Which texts are parsed right -/

/-- The parser has a result, which is valid for domain names and says whether one of their labels
is of punycode. -/
structure ParsesDomainName (text : List Char) : Prop where
  reads : parseDomainNameRun text = .ok (parseDomainName text)
  accepts : (parseDomainName text).isValid = true ↔ IsDomainName text
  punycode : parseDomainName text = .validPunycode ↔ IsDomainName text ∧ HasPunycode text

/-- A label before a dot has as many characters as a label may have. -/
def HasLongLabel (text : List Char) : Prop :=
  ∃ label ∈ (text.splitOn '.').dropLast, label.length = 63

/-- A hyphen at the end of a label is all that is wrong with the text, and it is let through. -/
def HasLooseLabel (text : List Char) : Prop :=
  text.length ≤ 255 ∧ AllPassed (text.splitOn '.') ∧
    ∃ label ∈ text.splitOn '.', label.getLast? = some '-'

section Labels

variable {labels : List (List Char)}

theorem allPassed_of_labels (hne : labels ≠ []) (hlabels : ∀ label ∈ labels, IsLabel label)
    (hlong : ∀ label ∈ labels.dropLast, label.length ≠ 63) : AllPassed labels := by
  induction labels with
  | nil => exact (hne rfl).elim
  | cons label labels ih =>
      obtain ⟨hlabel, hrest⟩ := List.forall_mem_cons.mp hlabels
      cases labels with
      | nil => exact .inl ⟨hlabel, hlabel.length⟩
      | cons label' labels =>
          rw [List.dropLast_cons_of_ne_nil (List.cons_ne_nil label' labels),
            List.forall_mem_cons] at hlong
          have hlength : label.length + 1 ≤ 63 :=
            Nat.lt_of_le_of_ne hlabel.length hlong.1
          exact ⟨.inl ⟨hlabel, hlength⟩, ih (List.cons_ne_nil label' labels) hrest hlong.2⟩

theorem PassedLabel.isLabel {dotBehind : Bool}
    (h : PassedLabel dotBehind label) (hlast : label.getLast? ≠ some '-') : IsLabel label := by
  rcases h with ⟨hlabel, -⟩ | hloose
  · exact hlabel
  · exact (hlast hloose.last).elim

theorem AllPassed.isLabel (h : AllPassed labels)
    (hlast : ∀ label ∈ labels, label.getLast? ≠ some '-') : ∀ label ∈ labels, IsLabel label := by
  induction labels with
  | nil => exact h.elim
  | cons label labels ih =>
      obtain ⟨hfirst, hrest⟩ := List.forall_mem_cons.mp hlast
      cases labels with
      | nil =>
          rw [List.forall_mem_singleton]
          exact PassedLabel.isLabel h hfirst
      | cons label' labels =>
          exact List.forall_mem_cons.mpr ⟨h.1.isLabel hfirst, ih h.2 hrest⟩

theorem AllPassed.short (h : AllPassed labels) :
    ∀ label ∈ labels.dropLast, label.length ≠ 63 := by
  induction labels with
  | nil => exact h.elim
  | cons label labels ih =>
      cases labels with
      | nil => exact fun label hmem => absurd hmem List.not_mem_nil
      | cons label' labels =>
          rw [List.dropLast_cons_of_ne_nil (List.cons_ne_nil label' labels), List.forall_mem_cons]
          obtain ⟨-, -, hlength, -⟩ := (passedLabel_iff true label).mp h.1
          exact ⟨Nat.ne_of_lt hlength, ih h.2⟩

end Labels

theorem accepts_iff (text : List Char) :
    ((parseDomainName text).isValid = true ↔ IsDomainName text) ↔
      ¬ (IsDomainName text ∧ HasLongLabel text) ∧ ¬ HasLooseLabel text := by
  have hvalid : (parseDomainName text).isValid = true ↔
      text.length ≤ 255 ∧ AllPassed (text.splitOn '.') := by
    obtain ⟨hpassed, hfailed⟩ := parseDomainName_passed text
    by_cases h : text.length ≤ 255 ∧ AllPassed (text.splitOn '.')
    · rw [hpassed h]
      exact iff_of_true (validStatus_isValid _) h
    · rw [hfailed h]
      exact iff_of_false Bool.false_ne_true h
  rw [hvalid]
  constructor
  · intro heq
    constructor
    · rintro ⟨hname, label, hmem, hlength⟩
      exact (heq.mpr hname).2.short label hmem hlength
    · rintro ⟨hlength, hpassed, label, hmem, hlast⟩
      exact ((heq.mp ⟨hlength, hpassed⟩).labels label hmem).last hlast
  · rintro ⟨hlong, hloose⟩
    constructor
    · rintro ⟨hlength, hpassed⟩
      refine ⟨⟨List.length_pos_iff.mpr hpassed.start.1, hlength⟩, hpassed.isLabel ?_⟩
      exact fun label hmem hlast => hloose ⟨hlength, hpassed, label, hmem, hlast⟩
    · intro hname
      refine ⟨hname.length.2, allPassed_of_labels (List.splitOn_ne_nil '.' text) hname.labels ?_⟩
      exact fun label hmem hlength => hlong ⟨hname, label, hmem, hlength⟩

theorem parsesDomainName_iff (text : List Char) :
    ParsesDomainName text ↔
      ¬ (IsDomainName text ∧ HasLongLabel text) ∧ ¬ HasLooseLabel text := by
  rw [← accepts_iff]
  constructor
  · exact fun h => h.accepts
  · intro haccepts
    refine ⟨parseDomainNameRun_eq text, haccepts, ?_⟩
    obtain ⟨hpassed, hfailed⟩ := parseDomainName_passed text
    rw [← haccepts]
    by_cases h : text.length ≤ 255 ∧ AllPassed (text.splitOn '.')
    · rw [hpassed h, and_iff_right (validStatus_isValid _), validStatus]
      by_cases hpunycode : HasPunycode text
      · rw [decide_eq_true hpunycode]
        exact iff_of_true rfl hpunycode
      · rw [decide_eq_false hpunycode]
        exact iff_of_false (fun heq => nomatch heq) hpunycode
    · have hinvalid := hfailed h
      refine iff_of_false (fun heq => ?_) fun hvalid => ?_
      · rw [heq] at hinvalid
        cases hinvalid
      · rw [hinvalid] at hvalid
        cases hvalid.1

/-- `xn--a-` is taken for a label. -/
theorem not_parsesDomainName_loose : ¬ ∀ text : List Char, ParsesDomainName text := by
  intro h
  have hname := (h ['x', 'n', '-', '-', 'a', '-']).accepts.mp (by decide)
  have hlabel := hname.labels ['x', 'n', '-', '-', 'a', '-'] (by decide)
  exact hlabel.last rfl

end Webpp.Uri
