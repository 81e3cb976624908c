import Webpp.Uri.Charset
import Mathlib.Data.List.TakeWhile

/-!
# Domain names

`parse_domain_name` and `basic_domain`. The parser walks over the labels; the iterator is
the rest of the text, and where a label starts is kept as the number of characters from
there to the end.
-/

namespace Webpp.Uri

variable {pos : List Char} {startLen : ℕ}

inductive DomainNameStatus where
  | unparsed | valid | validPunycode | invalidCharacter | tooLong | subdomainTooLong | dotAtEnd
  | beginWithHyphen | endWithHyphen | doubleHyphen | emptySubdomain
  deriving DecidableEq

def domainNameThreshold : ℕ := 255
def subdomainThreshold : ℕ := 63

/-- The test for `xn--`, which moves the iterator as far as it matches. -/
def punycodeStart : List Char → Bool × List Char
  | 'x' :: rest =>
      if ('x' :: rest).length > 4 then
        match rest with
        | 'n' :: '-' :: '-' :: rest => (true, '-' :: rest)
        | 'n' :: '-' :: rest => (false, rest)
        | 'n' :: rest => (false, rest)
        | rest => (false, rest)
      else (false, 'x' :: rest)
  | pos => (false, pos)

/-- What the character at the iterator means: the parse ends, or it goes on behind the
character, in a new label after a dot. -/
inductive DomainStep where
  | stop (status : DomainNameStatus)
  | label (pos : List Char)
  | next (pos : List Char)

/-- The `switch` of `parse_domain_name`. -/
def domainSwitch (startLen : ℕ) : List Char → DomainStep
  | [] => .stop .unparsed
  | '.' :: pos =>
      if pos = [] then .stop .dotAtEnd
      else if pos.head? = some '.' then .stop .emptySubdomain
      else if pos.head? = some '-' then .stop .beginWithHyphen
      else if startLen - pos.length > subdomainThreshold then .stop .subdomainTooLong
      else .label pos
  | '-' :: pos =>
      if pos = [] ∨ pos.head? = some '.' then .stop .endWithHyphen
      else if pos.head? = some '-' then .stop .doubleHyphen
      else .next pos
  | c :: pos => if alphaDigit.contains c then .next pos else .stop .invalidCharacter

/-- The loop of `parse_domain_name`; every round moves the iterator. -/
def domainLoop : ℕ → List Char → ℕ → Bool → DomainNameStatus
  | _, [], startLen, hasPunycode =>
      if startLen > subdomainThreshold then .subdomainTooLong
      else if hasPunycode then .validPunycode else .valid
  | 0, _ :: _, _, _ => .unparsed
  | n + 1, c :: pos, startLen, hasPunycode =>
      match punycodeStart (c :: pos) with
      | (true, pos) =>
          domainLoop n (pos.dropWhile fun c => alphaDigit.contains c || c = '-') startLen true
      | (false, pos) =>
          match domainSwitch startLen pos with
          | .stop status => status
          | .label pos => domainLoop n pos pos.length hasPunycode
          | .next pos => domainLoop n (pos.dropWhile fun c => alphaDigit.contains c) startLen hasPunycode

def parseDomainName : List Char → DomainNameStatus
  | [] => .emptySubdomain
  | c :: pos =>
      if (c :: pos).length > domainNameThreshold then .tooLong
      else if c = '.' then .emptySubdomain
      else if c = '-' then .beginWithHyphen
      else domainLoop (c :: pos).length (c :: pos) (c :: pos).length false

/-- `basic_domain` -/
structure Domain where
  storage : List Char
  status : DomainNameStatus
  deriving DecidableEq

def Domain.ofText (text : List Char) : Domain := ⟨text, parseDomainName text⟩

def DomainNameStatus.isValid (status : DomainNameStatus) : Bool :=
  status == .valid || status == .validPunycode

def Domain.isValid (domain : Domain) : Bool := domain.status.isValid

/-! ## The characters of a domain name -/

/-- A character of a domain name. -/
def IsDomainChar (c : Char) : Prop := alphaDigit.contains c = true ∨ c = '-' ∨ c = '.'

theorem isDomainChar_x : IsDomainChar 'x' := .inl (by decide)

/-- What the test for `xn--` passes are characters of a domain name. -/
theorem punycodeStart_passes (pos : List Char) :
    ∃ passed, pos = passed ++ (punycodeStart pos).2 ∧ ∀ c ∈ passed, IsDomainChar c := by
  unfold punycodeStart
  split
  · rename_i rest
    split
    · split
      · rename_i rest
        exact ⟨['x', 'n', '-'], rfl, by simp [IsDomainChar]; decide⟩
      · rename_i rest _
        exact ⟨['x', 'n', '-'], rfl, by simp [IsDomainChar]; decide⟩
      · rename_i rest _ _
        exact ⟨['x', 'n'], rfl, by simp [IsDomainChar]; decide⟩
      · exact ⟨['x'], rfl, by simp [IsDomainChar]; decide⟩
    · exact ⟨[], rfl, by simp⟩
  · exact ⟨[], rfl, by simp⟩

/-- What the `switch` passes is a character of a domain name. -/
theorem domainSwitch_passes {pos pos' : List Char}
    (h : domainSwitch startLen pos = .label pos' ∨ domainSwitch startLen pos = .next pos') :
    ∃ c, pos = c :: pos' ∧ IsDomainChar c := by
  unfold domainSwitch at h
  split at h
  · simp at h
  · rename_i rest
    split_ifs at h
    · simp at h
    · simp at h
    · simp at h
    · simp at h
    · simp at h
      exact ⟨'.', by rw [h], .inr (.inr rfl)⟩
  · rename_i rest
    split_ifs at h
    · simp at h
    · simp at h
    · simp at h
      exact ⟨'-', by rw [h], .inr (.inl rfl)⟩
  · rename_i c rest _ _
    split_ifs at h with hc
    · simp at h
      exact ⟨c, by rw [h], .inl hc⟩
    · simp at h

/-- The parse does not succeed in the `switch`. -/
theorem domainSwitch_stop {status : DomainNameStatus}
    (h : domainSwitch startLen pos = .stop status) : status.isValid = false := by
  unfold domainSwitch at h
  split at h
  · cases h
    rfl
  · split_ifs at h <;> cases h <;> rfl
  · split_ifs at h <;> cases h <;> rfl
  · split_ifs at h
    cases h
    rfl

theorem isDomainChar_of_mem_takeWhile {p : Char → Bool} {c : Char}
    (hp : ∀ c, p c = true → IsDomainChar c) (h : c ∈ pos.takeWhile p) : IsDomainChar c :=
  hp c (List.mem_takeWhile_imp h)

theorem domainLoop_chars {n : ℕ} {hasPunycode : Bool}
    (h : (domainLoop n pos startLen hasPunycode).isValid = true) : ∀ c ∈ pos, IsDomainChar c := by
  induction n generalizing pos startLen hasPunycode with
  | zero =>
      cases pos with
      | nil => simp
      | cons c pos => exact absurd h (by simp [domainLoop, DomainNameStatus.isValid])
  | succ n ih =>
      cases pos with
      | nil => simp
      | cons c₀ pos =>
          obtain ⟨passed, hsplit, hpassed⟩ := punycodeStart_passes (c₀ :: pos)
          rw [domainLoop] at h
          split at h
          · rename_i pos₁ hstart
            rw [hstart] at hsplit
            have hrest := ih h
            intro c hc
            rw [hsplit] at hc
            rcases List.mem_append.1 hc with hc | hc
            · exact hpassed c hc
            · rw [← List.takeWhile_append_dropWhile (p := fun c => alphaDigit.contains c || c = '-')
                (l := pos₁)] at hc
              rcases List.mem_append.1 hc with hc | hc
              · refine isDomainChar_of_mem_takeWhile (fun d hd => ?_) hc
                rcases Bool.or_eq_true_iff.1 hd with hd | hd
                · exact .inl hd
                · exact .inr (.inl (by simpa using hd))
              · exact hrest c hc
          · rename_i pos₁ hstart
            rw [hstart] at hsplit
            have hswitch : ∀ pos₂, (domainSwitch startLen pos₁ = .label pos₂ ∨
                domainSwitch startLen pos₁ = .next pos₂) → (∀ c ∈ pos₂, IsDomainChar c) →
                ∀ c ∈ c₀ :: pos, IsDomainChar c := by
              intro pos₂ hpos₂ hrest c hc
              obtain ⟨d, hd, hdchar⟩ := domainSwitch_passes hpos₂
              rw [hsplit, hd] at hc
              rcases List.mem_append.1 hc with hc | hc
              · exact hpassed c hc
              · rcases List.mem_cons.1 hc with rfl | hc
                · exact hdchar
                · exact hrest c hc
            cases hs : domainSwitch startLen pos₁ with
            | stop status =>
                rw [hs] at h
                exact absurd h (by simp [domainSwitch_stop hs])
            | label pos₂ =>
                rw [hs] at h
                exact hswitch pos₂ (.inl hs) (ih h)
            | next pos₂ =>
                rw [hs] at h
                refine hswitch pos₂ (.inr hs) fun c hc => ?_
                rw [← List.takeWhile_append_dropWhile (p := fun c => alphaDigit.contains c)
                  (l := pos₂)] at hc
                rcases List.mem_append.1 hc with hc | hc
                · exact isDomainChar_of_mem_takeWhile (fun d hd => .inl hd) hc
                · exact ih h c hc

theorem Domain.chars {text : List Char} (h : (Domain.ofText text).isValid = true) :
    ∀ c ∈ text, IsDomainChar c := by
  rw [isValid, ofText] at h
  dsimp only at h
  cases text with
  | nil => simp
  | cons c pos =>
      rw [parseDomainName] at h
      split_ifs at h
      · exact absurd h (by decide)
      · exact absurd h (by decide)
      · exact absurd h (by decide)
      · exact domainLoop_chars h

theorem Domain.ne_nil {text : List Char} (h : (Domain.ofText text).isValid = true) :
    text ≠ [] := by
  intro hnil
  subst hnil
  exact absurd h (by decide)

theorem parseDomainName_first {c : Char} (hc : ¬IsDomainChar c) (pos : List Char) :
    parseDomainName (c :: pos) =
      if (c :: pos).length > domainNameThreshold then .tooLong else .invalidCharacter := by
  have hx : c ≠ 'x' := fun h => hc (h ▸ isDomainChar_x)
  have hhyphen : c ≠ '-' := fun h => hc (.inr (.inl h))
  have hdot : c ≠ '.' := fun h => hc (.inr (.inr h))
  have halpha : ¬alphaDigit.contains c = true := fun h => hc (.inl h)
  have hstart : punycodeStart (c :: pos) = (false, c :: pos) := by
    unfold punycodeStart
    split
    · rename_i rest heq
      exact absurd (List.cons.inj heq).1 hx
    · rfl
  have hswitch : ∀ n, domainSwitch n (c :: pos) = .stop .invalidCharacter := by
    intro n
    rw [domainSwitch]
    · exact if_neg halpha
    · exact hdot
    · exact hhyphen
  rw [parseDomainName, if_neg hdot, if_neg hhyphen]
  congr 1
  rw [List.length_cons, domainLoop, hstart]
  dsimp only
  rw [hswitch]

end Webpp.Uri
