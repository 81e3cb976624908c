import Webpp.Uri.Domain

/-!
# Labels of domain names

How `parse_domain_name` goes through one label. Behind a character that is no hyphen it skips
letters and digits, so that it looks for `xn--` at the start of a label only. Where the test for
it succeeds, any hyphens are skipped, also at the end of the label; where it fails behind `xn-`,
the hyphen has been passed without a test.
-/

namespace Webpp.Uri

variable {status : DomainNameStatus} {rest : List Char}

/-- A letter, a digit or a hyphen. -/
def isLabelChar (c : Char) : Bool := alphaDigit.contains c || c = '-'

def punycodeMark : List Char := ['x', 'n', '-', '-']

/-- The label from a place on that is behind a hyphen or not: letters and digits, with single
hyphens between them. -/
def plainScan : Bool → List Char → Bool
  | hyphen, [] => !hyphen
  | hyphen, c :: label =>
      if alphaDigit.contains c then plainScan false label
      else if c = '-' then !hyphen && plainScan true label
      else false

/-- What the parser lets through as a label, with `behind` characters behind it. -/
def labelPasses (behind : ℕ) (label : List Char) : Bool :=
  if punycodeMark <+: label ∧ 4 < label.length + behind then label.all isLabelChar
  else plainScan false label || label = ['x', 'n', '-'] && decide (2 ≤ behind)

/-- What is behind a label. -/
def IsLabelTail (tail : List Char) : Prop := tail = [] ∨ ∃ rest, tail = '.' :: rest

/-- The parser has gone through a label where it is let through, and fails where it is not. -/
structure LabelParsed (passes : Bool) (tail : List Char) (startLen : ℕ) (hasPunycode : Bool)
    (status : DomainNameStatus) : Prop where
  passed : passes = true → ∃ m, tail.length ≤ m ∧ status = domainLoop m tail startLen hasPunycode
  failed : passes = false → status.isValid = false

/-! ## One round -/

/-- The `switch` and what follows it. -/
def switchRound (n : ℕ) (pos : List Char) (startLen : ℕ) (hasPunycode : Bool) :
    DomainNameStatus :=
  match domainSwitch startLen pos with
  | .stop status => status
  | .label pos => domainLoop n pos pos.length hasPunycode
  | .next pos => domainLoop n (pos.dropWhile fun c => alphaDigit.contains c) startLen hasPunycode

section Rounds

variable {n startLen : ℕ} {hasPunycode : Bool} {c : Char} {pos pos' rest : List Char}

theorem domainLoop_switch (h : punycodeStart (c :: pos) = (false, pos')) :
    domainLoop (n + 1) (c :: pos) startLen hasPunycode =
      switchRound n pos' startLen hasPunycode := by
  rw [domainLoop, h]
  rfl

theorem domainLoop_punycode (h : punycodeStart (c :: pos) = (true, pos')) :
    domainLoop (n + 1) (c :: pos) startLen hasPunycode =
      domainLoop n (pos'.dropWhile isLabelChar) startLen true := by
  rw [domainLoop, h]
  rfl

theorem punycodeStart_of_ne (h : c ≠ 'x') : punycodeStart (c :: pos) = (false, c :: pos) := by
  unfold punycodeStart
  split
  · rename_i rest heq
    exact absurd (List.cons.inj heq).1 h
  · rfl

/-- The test behind an `x`. -/
theorem punycodeStart_long (h : 4 < ('x' :: rest).length) :
    punycodeStart ('x' :: rest) =
      if ['n', '-', '-'] <+: rest then (true, rest.drop 2)
      else if ['n', '-'] <+: rest then (false, rest.drop 2)
      else if ['n'] <+: rest then (false, rest.drop 1)
      else (false, rest) := by
  unfold punycodeStart
  split
  · rename_i rest' heq
    cases heq
    rw [if_pos h]
    split
    · rw [if_pos (by simp)]
      rfl
    · rename_i rest hne
      rw [if_neg (by rintro ⟨rest', heq⟩; cases heq; exact hne rest' rfl), if_pos (by simp)]
      rfl
    · rename_i rest hne hne'
      rw [if_neg (by rintro ⟨rest', heq⟩; cases heq; exact hne rest' rfl),
        if_neg (by rintro ⟨rest', heq⟩; cases heq; exact hne' rest' rfl), if_pos (by simp)]
      rfl
    · rename_i hne hne' hne''
      rw [if_neg (by rintro ⟨rest', heq⟩; cases heq; exact hne rest' rfl),
        if_neg (by rintro ⟨rest', heq⟩; cases heq; exact hne' rest' rfl),
        if_neg (by rintro ⟨rest', heq⟩; cases heq; exact hne'' rest' rfl)]
  · rename_i hne
    exact absurd rfl (hne rest)

theorem punycodeStart_short (h : ('x' :: rest).length ≤ 4) :
    punycodeStart ('x' :: rest) = (false, 'x' :: rest) := by
  unfold punycodeStart
  split
  · rename_i rest' heq
    cases heq
    exact if_neg (Nat.not_lt.mpr h)
  · rfl

/-- Where the test for `xn--` does not move the iterator, the `switch` is all of the round. -/
theorem switchRound_of_ne (h : c ≠ 'x') :
    switchRound n (c :: pos) startLen hasPunycode =
      domainLoop (n + 1) (c :: pos) startLen hasPunycode :=
  (domainLoop_switch (punycodeStart_of_ne h)).symm

theorem switchRound_alpha (h : alphaDigit.contains c = true) :
    switchRound n (c :: pos) startLen hasPunycode =
      domainLoop n (pos.dropWhile fun c => alphaDigit.contains c) startLen hasPunycode := by
  have hdot : c ≠ '.' := by
    rintro rfl
    exact absurd h (by decide)
  have hhyphen : c ≠ '-' := by
    rintro rfl
    exact absurd h (by decide)
  rw [switchRound, domainSwitch, if_pos h]
  · exact hdot
  · exact hhyphen

theorem switchRound_invalid (hdot : c ≠ '.') (h : isLabelChar c = false) :
    switchRound n (c :: pos) startLen hasPunycode = .invalidCharacter := by
  rw [isLabelChar, Bool.or_eq_false_iff, decide_eq_false_iff_not] at h
  rw [switchRound, domainSwitch, if_neg (by rw [h.1]; exact Bool.false_ne_true)]
  · exact hdot
  · exact h.2

theorem switchRound_hyphen (hend : pos ≠ []) (hdot : pos.head? ≠ some '.')
    (hhyphen : pos.head? ≠ some '-') :
    switchRound n ('-' :: pos) startLen hasPunycode =
      domainLoop n (pos.dropWhile fun c => alphaDigit.contains c) startLen hasPunycode := by
  rw [switchRound, domainSwitch, if_neg (not_or.mpr ⟨hend, hdot⟩), if_neg hhyphen]

theorem switchRound_hyphen_fails
    (h : pos = [] ∨ pos.head? = some '.' ∨ pos.head? = some '-') :
    (switchRound n ('-' :: pos) startLen hasPunycode).isValid = false := by
  rw [switchRound, domainSwitch]
  by_cases hend : pos = [] ∨ pos.head? = some '.'
  · rw [if_pos hend]
    rfl
  · rw [if_neg hend, if_pos ((or_assoc.mpr h).resolve_left hend)]
    rfl

end Rounds

/-! ## Through a plain label -/

section Plain

variable {n startLen : ℕ} {hasPunycode : Bool} {c : Char} {label tail : List Char}

theorem plainScan_alpha (h : alphaDigit.contains c = true) (hyphen : Bool) (label : List Char) :
    plainScan hyphen (c :: label) = plainScan false label := by
  rw [plainScan, if_pos h]

theorem plainScan_hyphen (hyphen : Bool) (label : List Char) :
    plainScan hyphen ('-' :: label) = (!hyphen && plainScan true label) := by
  rw [plainScan, if_neg (by decide), if_pos rfl]

theorem plainScan_invalid (h : isLabelChar c = false) (hyphen : Bool) (label : List Char) :
    plainScan hyphen (c :: label) = false := by
  rw [isLabelChar, Bool.or_eq_false_iff, decide_eq_false_iff_not] at h
  rw [plainScan, if_neg (by rw [h.1]; exact Bool.false_ne_true), if_neg h.2]

theorem plainScan_dropWhile (label : List Char) :
    plainScan false (label.dropWhile fun c => alphaDigit.contains c) = plainScan false label := by
  induction label with
  | nil => rfl
  | cons c label ih =>
      by_cases h : alphaDigit.contains c = true
      · rw [List.dropWhile_cons_of_pos h, ih, plainScan_alpha h]
      · rw [List.dropWhile_cons_of_neg h]

theorem plainScan_behind (h : c ≠ '-') (label : List Char) :
    plainScan true (c :: label) = plainScan false (c :: label) := by
  by_cases halpha : alphaDigit.contains c = true
  · rw [plainScan_alpha halpha, plainScan_alpha halpha]
  · have hinvalid : isLabelChar c = false := by
      rw [isLabelChar, Bool.or_eq_false_iff, decide_eq_false_iff_not]
      exact ⟨Bool.eq_false_iff.mpr halpha, h⟩
    rw [plainScan_invalid hinvalid, plainScan_invalid hinvalid]

theorem dropWhile_label (htail : IsLabelTail tail) (p : Char → Bool) (hp : p '.' = false)
    (label : List Char) : (label ++ tail).dropWhile p = label.dropWhile p ++ tail := by
  induction label with
  | nil =>
      rcases htail with rfl | ⟨rest, rfl⟩
      · rfl
      · exact List.dropWhile_cons_of_neg (by rw [hp]; exact Bool.false_ne_true)
  | cons c label ih =>
      rw [List.cons_append]
      by_cases h : p c = true
      · rw [List.dropWhile_cons_of_pos h, List.dropWhile_cons_of_pos h, ih]
      · rw [List.dropWhile_cons_of_neg h, List.dropWhile_cons_of_neg h, List.cons_append]

theorem dropWhile_head {p : Char → Bool} (label : List Char) :
    ∀ c, (label.dropWhile p).head? = some c → p c = false := by
  intro c hc
  have h := List.head?_dropWhile_not p label
  rw [hc] at h
  exact h

theorem not_mem_dropWhile (p : Char → Bool) (hdot : '.' ∉ label) : '.' ∉ label.dropWhile p :=
  fun h => hdot ((List.dropWhile_sublist p).subset h)

theorem length_dropWhile_append_le (p : Char → Bool) (label tail : List Char) :
    (label.dropWhile p ++ tail).length ≤ (label ++ tail).length := by
  rw [List.length_append, List.length_append]
  exact Nat.add_le_add_right (List.dropWhile_sublist p).length_le tail.length

theorem LabelParsed.of_failed (h : status.isValid = false) :
    LabelParsed false tail startLen hasPunycode status :=
  ⟨fun hpasses => absurd hpasses Bool.false_ne_true, fun _ => h⟩

theorem LabelParsed.of_passed {m : ℕ} (h : tail.length ≤ m) :
    LabelParsed true tail startLen hasPunycode (domainLoop m tail startLen hasPunycode) :=
  ⟨fun _ => ⟨m, h, rfl⟩, fun hfails => absurd hfails.symm Bool.false_ne_true⟩

theorem domainLoop_plain (hdot : '.' ∉ label) (htail : IsLabelTail tail)
    (hhead : ∀ c, label.head? = some c → alphaDigit.contains c = false)
    (hn : (label ++ tail).length ≤ n) :
    LabelParsed (plainScan false label) tail startLen hasPunycode
      (domainLoop n (label ++ tail) startLen hasPunycode) := by
  induction n generalizing label with
  | zero =>
      have hnil := List.length_eq_zero_iff.mp (Nat.le_zero.mp hn)
      rw [List.append_eq_nil_iff] at hnil
      obtain ⟨rfl, rfl⟩ := hnil
      exact .of_passed (Nat.le_refl 0)
  | succ n ih =>
      cases label with
      | nil => exact .of_passed hn
      | cons c label =>
          have hc := hhead c rfl
          have hx : c ≠ 'x' := by
            rintro rfl
            exact absurd hc (by decide)
          obtain ⟨hcdot, hlabel⟩ := List.ne_and_not_mem_of_not_mem_cons hdot
          clear hdot
          rw [List.cons_append, List.length_cons] at hn
          rw [List.cons_append, ← switchRound_of_ne hx]
          by_cases hhyphen : c = '-'
          · subst hhyphen
            rw [plainScan_hyphen]
            cases label with
            | nil =>
                refine .of_failed (switchRound_hyphen_fails ?_)
                rcases htail with rfl | ⟨rest, rfl⟩
                · exact .inl rfl
                · exact .inr (.inl rfl)
            | cons d label =>
                by_cases hd : d = '-'
                · subst hd
                  rw [plainScan_hyphen]
                  exact .of_failed (switchRound_hyphen_fails (.inr (.inr rfl)))
                · obtain ⟨hddot, -⟩ := List.ne_and_not_mem_of_not_mem_cons hlabel
                  have hround : switchRound n ('-' :: (d :: label ++ tail)) startLen hasPunycode =
                      _ := switchRound_hyphen (List.cons_ne_nil d (label ++ tail))
                    (fun h => hddot (Option.some.inj h).symm) (fun h => hd (Option.some.inj h))
                  rw [hround, Bool.not_false, Bool.true_and, plainScan_behind hd,
                    ← plainScan_dropWhile, dropWhile_label htail _ (by decide)]
                  exact ih (not_mem_dropWhile _ hlabel) (dropWhile_head _)
                    ((length_dropWhile_append_le _ _ _).trans (Nat.le_of_succ_le_succ hn))
          · have hinvalid : isLabelChar c = false := by
              rw [isLabelChar, hc, Bool.false_or, decide_eq_false_iff_not]
              exact hhyphen
            rw [plainScan_invalid hinvalid, switchRound_invalid hcdot.symm hinvalid]
            exact .of_failed rfl

/-- From a place in a label where the `switch` looks first. -/
theorem switchRound_plain (hdot : '.' ∉ label) (htail : IsLabelTail tail)
    (hne : label ++ tail ≠ []) (hn : (label ++ tail).length ≤ n + 1) :
    LabelParsed (plainScan false label) tail startLen hasPunycode
      (switchRound n (label ++ tail) startLen hasPunycode) := by
  cases label with
  | nil =>
      rcases htail with rfl | ⟨rest, rfl⟩
      · exact (hne rfl).elim
      · rw [List.nil_append, switchRound_of_ne (by decide)]
        exact .of_passed hn
  | cons c label =>
      by_cases hc : alphaDigit.contains c = true
      · obtain ⟨-, hdot⟩ := List.ne_and_not_mem_of_not_mem_cons hdot
        rw [List.cons_append, switchRound_alpha hc, dropWhile_label htail _ (by decide),
          plainScan_alpha hc, ← plainScan_dropWhile]
        exact domainLoop_plain (not_mem_dropWhile _ hdot) htail (dropWhile_head _)
          ((length_dropWhile_append_le _ _ _).trans (Nat.le_of_succ_le_succ hn))
      · have hx : c ≠ 'x' := by
          rintro rfl
          exact hc (by decide)
        rw [List.cons_append, switchRound_of_ne hx, ← List.cons_append]
        refine domainLoop_plain hdot htail (fun d hd => ?_) hn
        cases hd
        exact Bool.eq_false_iff.mpr hc

end Plain

/-! ## Through any label -/

section Label

variable {n startLen : ℕ} {hasPunycode : Bool} {label tail : List Char}

/-- The test for `xn--` does not go beyond the label. -/
theorem prefix_label_iff (mark : List Char) (hmark : '.' ∉ mark) (htail : IsLabelTail tail)
    (label : List Char) : mark <+: label ++ tail ↔ mark <+: label := by
  induction mark generalizing label with
  | nil => exact iff_of_true List.nil_prefix List.nil_prefix
  | cons a mark ih =>
      obtain ⟨ha, hmark⟩ := List.ne_and_not_mem_of_not_mem_cons hmark
      cases label with
      | nil =>
          refine iff_of_false ?_ (by simp)
          rcases htail with rfl | ⟨rest, rfl⟩
          · simp
          · rw [List.nil_append, List.cons_prefix_cons]
            exact fun h => ha h.1.symm
      | cons c label =>
          rw [List.cons_append, List.cons_prefix_cons, List.cons_prefix_cons, ih hmark]

theorem labelPasses_of_plain (hmark : ¬ (punycodeMark <+: label ∧ 4 < label.length + tail.length))
    (hhalf : ¬ (label = ['x', 'n', '-'] ∧ 2 ≤ tail.length)) :
    labelPasses tail.length label = plainScan false label := by
  rw [labelPasses, if_neg hmark, ← Bool.decide_and, decide_eq_false hhalf, Bool.or_false]

/-- A label without the mark, for which the test has been passed. -/
theorem LabelParsed.unmarked
    (h : LabelParsed (labelPasses tail.length label) tail startLen hasPunycode status)
    (hmark : ¬ punycodeMark <+: label) :
    LabelParsed (labelPasses tail.length label) tail startLen
      (hasPunycode || decide (punycodeMark <+: label)) status := by
  rw [decide_eq_false hmark, Bool.or_false]
  exact h

theorem plainScan_dropWhile_label (label : List Char) :
    plainScan false (label.dropWhile isLabelChar) = label.all isLabelChar := by
  induction label with
  | nil => rfl
  | cons c label ih =>
      rw [List.all_cons]
      by_cases h : isLabelChar c = true
      · rw [List.dropWhile_cons_of_pos h, ih, h, Bool.true_and]
      · rw [List.dropWhile_cons_of_neg h, plainScan_invalid (Bool.eq_false_iff.mpr h),
          Bool.eq_false_iff.mpr h, Bool.false_and]

theorem not_contains_of_not_labelChar {c : Char} (h : isLabelChar c = false) :
    alphaDigit.contains c = false := by
  rw [isLabelChar, Bool.or_eq_false_iff] at h
  exact h.1

/-- A label that begins with `xn--`. -/
theorem domainLoop_mark (hdot : '.' ∉ rest) (htail : IsLabelTail tail)
    (hlong : 4 < (punycodeMark ++ (rest ++ tail)).length) (hn : (rest ++ tail).length ≤ n) :
    LabelParsed (rest.all isLabelChar) tail startLen true
      (domainLoop (n + 1) (punycodeMark ++ (rest ++ tail)) startLen hasPunycode) := by
  have hstart : punycodeStart (punycodeMark ++ (rest ++ tail)) = (true, '-' :: (rest ++ tail)) := by
    have hmark : ['n', '-', '-'] <+: 'n' :: '-' :: '-' :: (rest ++ tail) :=
      List.prefix_append ['n', '-', '-'] (rest ++ tail)
    exact (punycodeStart_long hlong).trans (if_pos hmark)
  have hround : domainLoop (n + 1) (punycodeMark ++ (rest ++ tail)) startLen hasPunycode =
      domainLoop n (('-' :: (rest ++ tail)).dropWhile isLabelChar) startLen true :=
    domainLoop_punycode hstart
  rw [hround, List.dropWhile_cons_of_pos (by decide), dropWhile_label htail _ (by decide),
    ← plainScan_dropWhile_label]
  refine domainLoop_plain (not_mem_dropWhile _ hdot) htail (fun c hc => ?_) ?_
  · exact not_contains_of_not_labelChar (dropWhile_head _ c hc)
  · exact (length_dropWhile_append_le _ _ _).trans hn

/-- A label that begins with `xn-` and no second hyphen: the first one is passed. -/
theorem domainLoop_half (hdot : '.' ∉ rest) (htail : IsLabelTail tail)
    (hrest : rest.head? ≠ some '-') (hlong : 4 < ('x' :: 'n' :: '-' :: (rest ++ tail)).length)
    (hn : (rest ++ tail).length ≤ n) :
    LabelParsed (labelPasses tail.length ('x' :: 'n' :: '-' :: rest)) tail startLen hasPunycode
      (domainLoop (n + 1) ('x' :: 'n' :: '-' :: (rest ++ tail)) startLen hasPunycode) := by
  have hmark : ¬ ['n', '-', '-'] <+: 'n' :: '-' :: (rest ++ tail) := by
    have hlabel := prefix_label_iff ['-'] (by decide) htail rest
    rw [List.cons_prefix_cons, List.cons_prefix_cons, hlabel]
    rintro ⟨-, -, after, rfl⟩
    exact hrest rfl
  have hstart : punycodeStart ('x' :: 'n' :: '-' :: (rest ++ tail)) = (false, rest ++ tail) := by
    refine (punycodeStart_long hlong).trans ((if_neg hmark).trans (if_pos ?_))
    exact List.prefix_append ['n', '-'] (rest ++ tail)
  have hne : rest ++ tail ≠ [] := by
    intro hnil
    rw [hnil] at hlong
    exact absurd hlong (by decide)
  rw [domainLoop_switch hstart]
  have hround : LabelParsed (plainScan false rest) tail startLen hasPunycode
      (switchRound n (rest ++ tail) startLen hasPunycode) :=
    switchRound_plain hdot htail hne (Nat.le_succ_of_le hn)
  have hpasses : labelPasses tail.length ('x' :: 'n' :: '-' :: rest) = plainScan false rest := by
    have hmark' : ¬ punycodeMark <+: 'x' :: 'n' :: '-' :: rest := by
      rintro ⟨after, heq⟩
      cases heq
      exact hrest rfl
    rw [labelPasses, if_neg fun h => hmark' h.1, plainScan_alpha (by decide),
      plainScan_alpha (by decide), plainScan_hyphen, Bool.not_false, Bool.true_and]
    cases rest with
    | nil =>
        have htwo : 2 ≤ tail.length := by
          rw [List.nil_append] at hlong
          simp only [List.length_cons] at hlong
          omega
        rw [decide_eq_true htwo]
        rfl
    | cons c rest =>
        have hc : c ≠ '-' := fun h => hrest (congrArg some h)
        rw [plainScan_behind hc, decide_eq_false (by simp), Bool.false_and, Bool.or_false]
  rw [hpasses]
  exact hround

/-- A label that begins with an `x` and does not go on with `n-`. -/
theorem domainLoop_x (hdot : '.' ∉ rest) (htail : IsLabelTail tail)
    (hrest : ¬ ['n', '-'] <+: rest) (hlong : 4 < ('x' :: (rest ++ tail)).length)
    (hn : (rest ++ tail).length ≤ n) :
    LabelParsed (labelPasses tail.length ('x' :: rest)) tail startLen hasPunycode
      (domainLoop (n + 1) ('x' :: (rest ++ tail)) startLen hasPunycode) := by
  have hhalf := prefix_label_iff ['n', '-'] (by decide) htail rest
  have hmark := prefix_label_iff ['n', '-', '-'] (by decide) htail rest
  have hlonger : ¬ ['n', '-', '-'] <+: rest := fun h => hrest (List.IsPrefix.trans (by decide) h)
  have hstart := punycodeStart_long hlong
  rw [if_neg fun h => hlonger (hmark.mp h), if_neg fun h => hrest (hhalf.mp h)] at hstart
  have hpasses : labelPasses tail.length ('x' :: rest) = plainScan false rest := by
    rw [labelPasses_of_plain, plainScan_alpha (by decide)]
    · rw [punycodeMark, List.cons_prefix_cons]
      exact fun h => hlonger h.1.2
    · rintro ⟨heq, -⟩
      exact hrest ⟨[], (List.cons.inj heq).2.symm⟩
  rw [hpasses]
  have hne : rest ++ tail ≠ [] := by
    intro hnil
    rw [hnil] at hlong
    exact absurd hlong (by decide)
  by_cases hn' : ['n'] <+: rest
  · obtain ⟨rest, rfl⟩ := hn'
    rw [if_pos ((prefix_label_iff ['n'] (by decide) htail _).mpr (List.prefix_append _ _))]
      at hstart
    rw [List.singleton_append] at hdot hn hlong ⊢
    obtain ⟨-, hdot⟩ := List.ne_and_not_mem_of_not_mem_cons hdot
    rw [List.cons_append, List.length_cons] at hn
    rw [plainScan_alpha (by decide)]
    have hne' : rest ++ tail ≠ [] := by
      intro hnil
      rw [List.cons_append, hnil] at hlong
      exact absurd hlong (by decide)
    have hloop : domainLoop (n + 1) ('x' :: ('n' :: rest ++ tail)) startLen hasPunycode =
        switchRound n (rest ++ tail) startLen hasPunycode := domainLoop_switch hstart
    rw [hloop]
    exact switchRound_plain hdot htail hne' (by omega)
  · rw [if_neg fun h => hn' ((prefix_label_iff ['n'] (by decide) htail _).mp h)] at hstart
    rw [domainLoop_switch hstart]
    exact switchRound_plain hdot htail hne (Nat.le_succ_of_le hn)

/-- A label that begins with an `x`, where the test for `xn--` is made. -/
theorem domainLoop_long (hdot : '.' ∉ rest) (htail : IsLabelTail tail)
    (hlong : 4 < ('x' :: (rest ++ tail)).length) (hn : (rest ++ tail).length ≤ n) :
    LabelParsed (labelPasses tail.length ('x' :: rest)) tail startLen
      (hasPunycode || decide (punycodeMark <+: 'x' :: rest))
      (domainLoop (n + 1) ('x' :: (rest ++ tail)) startLen hasPunycode) := by
  by_cases hhalf : ['n', '-'] <+: rest
  · obtain ⟨rest, rfl⟩ := hhalf
    rw [List.append_assoc] at hn hlong ⊢
    have hafter : '.' ∉ rest := fun h => hdot (List.mem_append_right _ h)
    rw [List.length_append] at hn
    by_cases hhyphen : rest.head? = some '-'
    · obtain ⟨rest, rfl⟩ : ∃ after, rest = '-' :: after := by
        cases rest with
        | nil => cases hhyphen
        | cons c rest => exact ⟨rest, by cases hhyphen; rfl⟩
      have hmark : punycodeMark <+: 'x' :: (['n', '-'] ++ '-' :: rest) :=
        List.prefix_append punycodeMark rest
      obtain ⟨-, hafter⟩ := List.ne_and_not_mem_of_not_mem_cons hafter
      rw [List.cons_append, List.length_cons] at hn
      rw [decide_eq_true hmark, Bool.or_true]
      have hlabel : labelPasses tail.length ('x' :: (['n', '-'] ++ '-' :: rest)) =
          rest.all isLabelChar := by
        have hlabel : 4 < ('x' :: (['n', '-'] ++ '-' :: rest)).length + tail.length := by
          simp only [List.length_cons, List.length_append] at hlong ⊢
          omega
        rw [labelPasses, if_pos ⟨hmark, hlabel⟩]
        rfl
      rw [hlabel]
      refine domainLoop_mark hafter htail hlong ?_
      simp only [List.length_cons, List.length_append, List.length_nil] at hn ⊢
      omega
    · refine LabelParsed.unmarked ?_ ?_
      · have hle : (rest ++ tail).length ≤ n := by
          rw [List.length_cons, List.length_singleton] at hn
          omega
        exact domainLoop_half hafter htail hhyphen hlong hle
      · rintro ⟨after, heq⟩
        cases heq
        exact hhyphen rfl
  · refine LabelParsed.unmarked (domainLoop_x hdot htail hhalf hlong hn) ?_
    rintro ⟨after, heq⟩
    cases heq
    exact hhalf (List.prefix_append ['n', '-'] ('-' :: after))

/-- A label where the test for `xn--` is not made, since too little is left. -/
theorem LabelParsed.short (h : LabelParsed (plainScan false label) tail startLen hasPunycode status)
    (hshort : ¬ 4 < (label ++ tail).length) :
    LabelParsed (labelPasses tail.length label) tail startLen
      (hasPunycode || decide (punycodeMark <+: label)) status := by
  rw [List.length_append] at hshort
  rw [labelPasses_of_plain (fun h => hshort h.2)]
  · by_cases hmark : punycodeMark <+: label
    · obtain ⟨after, rfl⟩ := hmark
      rw [List.length_append, punycodeMark] at hshort
      simp only [List.length_cons, List.length_nil] at hshort
      rw [List.length_eq_zero_iff.mp (show after.length = 0 by omega), List.append_nil] at h ⊢
      exact .of_failed (h.failed (by decide))
    · rw [decide_eq_false hmark, Bool.or_false]
      exact h
  · rintro ⟨rfl, htwo⟩
    simp only [List.length_cons, List.length_nil] at hshort
    omega

theorem domainLoop_start (hdot : '.' ∉ label) (htail : IsLabelTail tail) (hne : label ≠ [])
    (hn : (label ++ tail).length ≤ n) :
    LabelParsed (labelPasses tail.length label) tail startLen
      (hasPunycode || decide (punycodeMark <+: label))
      (domainLoop n (label ++ tail) startLen hasPunycode) := by
  obtain ⟨c, rest, rfl⟩ := List.exists_cons_of_ne_nil hne
  rw [List.cons_append, List.length_cons] at hn
  obtain ⟨n, rfl⟩ := Nat.exists_eq_add_of_le' (Nat.le_trans (Nat.succ_le_succ (Nat.zero_le _)) hn)
  have hround : LabelParsed (plainScan false (c :: rest)) tail startLen hasPunycode
      (switchRound n (c :: rest ++ tail) startLen hasPunycode) :=
    switchRound_plain hdot htail (List.cons_ne_nil c (rest ++ tail)) hn
  obtain ⟨-, hrest⟩ := List.ne_and_not_mem_of_not_mem_cons hdot
  by_cases hx : c = 'x'
  · subst hx
    rw [List.cons_append]
    by_cases hlong : 4 < ('x' :: (rest ++ tail)).length
    · exact domainLoop_long hrest htail hlong (Nat.le_of_succ_le_succ hn)
    · rw [domainLoop_switch (punycodeStart_short (Nat.le_of_not_lt hlong))]
      exact hround.short hlong
  · have hmark : ¬ punycodeMark <+: c :: rest := by
      rw [punycodeMark, List.cons_prefix_cons]
      exact fun h => hx h.1.symm
    rw [List.cons_append, domainLoop_switch (punycodeStart_of_ne hx), ← List.cons_append]
    refine LabelParsed.unmarked ?_ hmark
    rw [labelPasses_of_plain (fun h => hmark h.1) fun h => hx (List.cons.inj h.1).1]
    exact hround

end Label

end Webpp.Uri
