import Webpp.Uri.Context
import Webpp.Uri.DomainLabels

/-!
# Reading domain names

`parse_domain_name` with each read and each step of the iterator checked. The test for `xn--`
moves three times, and is only made where more than four characters are left.
-/

namespace Webpp.Uri

/-- `*pos == 'x' && end - pos > 4 && *++pos == 'n' && *++pos == '-' && *++pos == '-'` -/
def punycodeStartRun (pos : List Char) : Run (Bool × List Char) := do
  let c ← deref pos
  if c = 'x' ∧ 4 < pos.length then
    let pos ← advance pos 1
    let c ← deref pos
    if c = 'n' then
      let pos ← advance pos 1
      let c ← deref pos
      if c = '-' then
        let pos ← advance pos 1
        let c ← deref pos
        return (decide (c = '-'), pos)
      else
        return (false, pos)
    else
      return (false, pos)
  else
    return (false, pos)

/-- The `switch`. -/
def domainSwitchRun (startLen : ℕ) (pos : List Char) : Run DomainStep := do
  let c ← deref pos
  let pos ← advance pos 1
  if c = '.' then
    if pos = [] then return .stop .dotAtEnd
    else
      let next ← deref pos
      if next = '.' then return .stop .emptySubdomain
      else if next = '-' then return .stop .beginWithHyphen
      else if startLen - pos.length > subdomainThreshold then return .stop .subdomainTooLong
      else return .label pos
  else if c = '-' then
    if pos = [] then return .stop .endWithHyphen
    else
      let next ← deref pos
      if next = '.' then return .stop .endWithHyphen
      else if next = '-' then return .stop .doubleHyphen
      else return .next pos
  else if alphaDigit.contains c then return .next pos
  else return .stop .invalidCharacter

/-- The loop, for which as many rounds are enough as there are characters. -/
def domainLoopRun : ℕ → List Char → ℕ → Bool → Run DomainNameStatus
  | _, [], startLen, hasPunycode =>
      return if startLen > subdomainThreshold then .subdomainTooLong
        else if hasPunycode then .validPunycode else .valid
  | 0, _ :: _, _, _ => .error .diverges
  | n + 1, c :: pos, startLen, hasPunycode => do
      let probe ← punycodeStartRun (c :: pos)
      if probe.1 then
        domainLoopRun n (probe.2.dropWhile fun c => alphaDigit.contains c || c = '-') startLen true
      else
        match ← domainSwitchRun startLen probe.2 with
        | .stop status => return status
        | .label pos => domainLoopRun n pos pos.length hasPunycode
        | .next pos =>
            domainLoopRun n (pos.dropWhile fun c => alphaDigit.contains c) startLen hasPunycode

def parseDomainNameRun (text : List Char) : Run DomainNameStatus := do
  if text = [] then return .emptySubdomain
  else if text.length > domainNameThreshold then return .tooLong
  else
    let c ← deref text
    if c = '.' then return .emptySubdomain
    else if c = '-' then return .beginWithHyphen
    else domainLoopRun text.length text text.length false

/-! ## No read fails -/

section Reads

variable {c : Char} {pos : List Char}

theorem punycodeStartRun_of_ne (h : ¬ (c = 'x' ∧ 4 < (c :: pos).length)) :
    punycodeStartRun (c :: pos) = .ok (false, c :: pos) := by
  rw [punycodeStartRun, deref_cons, ok_bind, if_neg h]
  rfl

theorem punycodeStartRun_long {a b d : Char} (h : 4 < ('x' :: a :: b :: d :: pos).length) :
    punycodeStartRun ('x' :: a :: b :: d :: pos) =
      .ok (if a = 'n' then if b = '-' then (decide (d = '-'), d :: pos) else (false, b :: d :: pos)
        else (false, a :: b :: d :: pos)) := by
  rw [punycodeStartRun, deref_cons, ok_bind, if_pos ⟨rfl, h⟩, advance_one_cons, ok_bind,
    deref_cons, ok_bind]
  by_cases ha : a = 'n'
  · rw [if_pos ha, if_pos ha, advance_one_cons, ok_bind, deref_cons, ok_bind]
    by_cases hb : b = '-'
    · rw [if_pos hb, if_pos hb, advance_one_cons, ok_bind, deref_cons, ok_bind]
      rfl
    · rw [if_neg hb, if_neg hb]
      rfl
  · rw [if_neg ha, if_neg ha]
    rfl

theorem punycodeStart_four {a b d : Char} (h : 4 < ('x' :: a :: b :: d :: pos).length) :
    punycodeStart ('x' :: a :: b :: d :: pos) =
      if a = 'n' then if b = '-' then (decide (d = '-'), d :: pos) else (false, b :: d :: pos)
      else (false, a :: b :: d :: pos) := by
  rw [punycodeStart_long h]
  simp only [List.cons_prefix_cons, List.nil_prefix, and_true, List.drop_succ_cons,
    List.drop_zero, eq_comm (b := a), eq_comm (b := b), eq_comm (b := d)]
  by_cases ha : a = 'n'
  · by_cases hb : b = '-'
    · by_cases hd : d = '-'
      · simp [ha, hb, hd]
      · simp [ha, hb, hd]
    · simp [ha, hb]
  · simp [ha]

/-- Enough is left for the test for `xn--`, and for the `switch` behind it. -/
theorem punycodeStartRun_eq (c : Char) (pos : List Char) :
    punycodeStartRun (c :: pos) = .ok (punycodeStart (c :: pos)) ∧
      ∃ d rest, (punycodeStart (c :: pos)).2 = d :: rest ∧
        (d :: rest).length ≤ (c :: pos).length ∧
        ((punycodeStart (c :: pos)).1 = true → d = '-') := by
  by_cases h : c = 'x' ∧ 4 < (c :: pos).length
  · obtain ⟨rfl, hlong⟩ := h
    rcases pos with _ | ⟨a, _ | ⟨b, _ | ⟨d, pos⟩⟩⟩
    · exact absurd hlong (by simp)
    · exact absurd hlong (by simp)
    · exact absurd hlong (by simp)
    · rw [punycodeStartRun_long hlong, punycodeStart_four hlong]
      refine ⟨rfl, ?_⟩
      split_ifs
      · refine ⟨d, pos, rfl, ?_, of_decide_eq_true⟩
        simp only [List.length_cons]
        omega
      · refine ⟨b, d :: pos, rfl, ?_, fun hmark => by cases hmark⟩
        simp only [List.length_cons]
        omega
      · exact ⟨a, b :: d :: pos, rfl, Nat.le_succ _,
          fun hmark => by cases hmark⟩
  · have hstart : punycodeStart (c :: pos) = (false, c :: pos) := by
      by_cases hx : c = 'x'
      · subst hx
        exact punycodeStart_short (Nat.le_of_not_lt fun hlong => h ⟨rfl, hlong⟩)
      · exact punycodeStart_of_ne hx
    rw [punycodeStartRun_of_ne h, hstart]
    exact ⟨rfl, c, pos, rfl, Nat.le_refl _, fun hmark => absurd hmark Bool.false_ne_true⟩

theorem domainSwitchRun_eq (startLen : ℕ) (c : Char) (pos : List Char) :
    domainSwitchRun startLen (c :: pos) = .ok (domainSwitch startLen (c :: pos)) := by
  rw [domainSwitchRun, deref_cons, ok_bind, advance_one_cons, ok_bind]
  by_cases hdot : c = '.'
  · subst hdot
    rw [if_pos rfl, domainSwitch]
    cases pos with
    | nil => rfl
    | cons next pos =>
        rw [if_neg (List.cons_ne_nil next pos), if_neg (List.cons_ne_nil next pos), deref_cons,
          ok_bind]
        simp only [List.head?_cons, Option.some.injEq]
        split_ifs
        · rfl
        · rfl
        · rfl
        · rfl
  · rw [if_neg hdot]
    by_cases hhyphen : c = '-'
    · subst hhyphen
      rw [if_pos rfl, domainSwitch]
      cases pos with
      | nil => rfl
      | cons next pos =>
          have hne : next :: pos ≠ [] := List.cons_ne_nil next pos
          rw [if_neg hne, deref_cons, ok_bind]
          simp only [List.head?_cons, Option.some.injEq]
          by_cases hnext : next = '.'
          · rw [if_pos hnext, if_pos (.inr hnext)]
            rfl
          · rw [if_neg hnext, if_neg (not_or.mpr ⟨hne, hnext⟩)]
            split_ifs
            · rfl
            · rfl
    · rw [if_neg hhyphen, domainSwitch]
      · split_ifs
        · rfl
        · rfl
      · exact hdot
      · exact hhyphen

theorem domainLoopRun_eq {n : ℕ} {pos : List Char} (hn : pos.length ≤ n) (startLen : ℕ)
    (hasPunycode : Bool) :
    domainLoopRun n pos startLen hasPunycode = .ok (domainLoop n pos startLen hasPunycode) := by
  induction n generalizing pos startLen hasPunycode with
  | zero =>
      rw [List.length_eq_zero_iff.mp (Nat.le_zero.mp hn)]
      rfl
  | succ n ih =>
      cases pos with
      | nil => rfl
      | cons c pos =>
          obtain ⟨hprobe, d, rest, hrest, hlength, hmark⟩ := punycodeStartRun_eq c pos
          have hshort : rest.length ≤ n := by
            rw [List.length_cons] at hlength
            omega
          rw [domainLoopRun, hprobe, ok_bind]
          cases hstart : punycodeStart (c :: pos) with
          | mk marked pos' =>
              rw [hstart] at hrest hmark
              dsimp only at hrest hmark
              subst hrest
              cases marked with
              | true =>
                  rw [domainLoop_punycode hstart, hmark rfl, if_pos rfl]
                  refine ih ?_ startLen true
                  rw [List.dropWhile_cons_of_pos (by decide)]
                  exact Nat.le_trans (List.dropWhile_sublist _).length_le hshort
              | false =>
                  rw [domainLoop_switch hstart, if_neg Bool.false_ne_true, domainSwitchRun_eq,
                    ok_bind, switchRound]
                  cases hswitch : domainSwitch startLen (d :: rest) with
                  | stop status => rfl
                  | label pos' =>
                      obtain ⟨c', hpos', -⟩ := domainSwitch_passes (.inl hswitch)
                      rw [List.cons.injEq] at hpos'
                      rw [← hpos'.2]
                      exact ih hshort rest.length hasPunycode
                  | next pos' =>
                      obtain ⟨c', hpos', -⟩ := domainSwitch_passes (.inr hswitch)
                      rw [List.cons.injEq] at hpos'
                      rw [← hpos'.2]
                      exact ih (Nat.le_trans (List.dropWhile_sublist _).length_le hshort) startLen
                        hasPunycode

/-- The parser never reads at the end of the text, and never moves beyond it. -/
theorem parseDomainNameRun_eq (text : List Char) :
    parseDomainNameRun text = .ok (parseDomainName text) := by
  cases text with
  | nil => rfl
  | cons c text =>
      rw [parseDomainNameRun, if_neg (List.cons_ne_nil c text), deref_cons, ok_bind,
        parseDomainName]
      split_ifs
      · rfl
      · rfl
      · rfl
      · exact domainLoopRun_eq (Nat.le_refl _) _ _

end Reads

end Webpp.Uri
