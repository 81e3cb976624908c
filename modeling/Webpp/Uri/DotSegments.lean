import Webpp.Uri.Offsets
import Webpp.Uri.PathState

/-!
# Dot segments

`handle_dots_in_paths` counts the dots of a segment with an automaton that knows the last
character of an escape. A dot does not end an escape, an escape need not be finished, and the
counter is a byte.
-/

namespace Webpp.Uri

open ComponentEncoder Webpp.Text

/-! ## The automaton -/

/-- The characters of the escapes of a segment, an `E` as an `e`. -/
def escapeLetters (segment : List Char) : List Char :=
  (segment.filter (· ≠ '.')).map fun c => if c = 'E' then 'e' else c

/-- The characters that an escape has, by the last of them. -/
def escapeStem (prev : Char) : List Char :=
  if prev = '%' then ['%'] else if prev = '2' then ['%', '2'] else []

def escapes : ℕ → List Char
  | 0 => []
  | count + 1 => '%' :: '2' :: 'e' :: escapes count

/-- Behind the character `prev`, `letters` finish `count` escapes, and another one may be
unfinished. -/
def FinishesEscapes (prev : Char) (letters : List Char) (count : ℕ) : Prop :=
  ∃ unfinished, escapeStem prev ++ letters = escapes count ++ unfinished ∧
    (unfinished = [] ∨ unfinished = ['%'] ∨ unfinished = ['%', '2'])

/-- The states of the automaton. -/
def EscapeState (prev : Char) : Prop := prev = '\x00' ∨ prev = '%' ∨ prev = '2'

section Automaton

variable {prev c : Char} {letters segment : List Char} {count : ℕ}

theorem finishesEscapes_nil (hprev : EscapeState prev) :
    FinishesEscapes prev [] count ↔ count = 0 := by
  constructor
  · rintro ⟨unfinished, heq, -⟩
    cases count with
    | zero => rfl
    | succ count =>
        rcases hprev with rfl | rfl | rfl
        · cases heq
        · cases heq
        · cases heq
  · rintro rfl
    rcases hprev with rfl | rfl | rfl
    · exact ⟨_, rfl, .inl rfl⟩
    · exact ⟨_, rfl, .inr (.inl rfl)⟩
    · exact ⟨_, rfl, .inr (.inr rfl)⟩

theorem finishesEscapes_e : FinishesEscapes '2' ('e' :: letters) count ↔
    ∃ finished, count = finished + 1 ∧ FinishesEscapes '\x00' letters finished := by
  constructor
  · rintro ⟨unfinished, heq, hunfinished⟩
    cases count with
    | zero =>
        rcases hunfinished with rfl | rfl | rfl
        · cases heq
        · cases heq
        · cases heq
    | succ finished =>
        refine ⟨finished, rfl, unfinished, ?_, hunfinished⟩
        exact (List.cons.inj (List.cons.inj (List.cons.inj heq).2).2).2
  · rintro ⟨finished, rfl, unfinished, heq, hunfinished⟩
    refine ⟨unfinished, ?_, hunfinished⟩
    exact congrArg ('%' :: '2' :: 'e' :: ·) heq

theorem not_finishesEscapes (hprev : EscapeState prev) (hstart : prev = '\x00' → c ≠ '%')
    (htwo : prev = '%' → c ≠ '2') (he : prev = '2' → c ≠ 'e') :
    ¬FinishesEscapes prev (c :: letters) count := by
  rintro ⟨unfinished, heq, hunfinished⟩
  have hform : (∃ rest, escapes count ++ unfinished = '%' :: '2' :: 'e' :: rest) ∨
      escapes count ++ unfinished = [] ∨ escapes count ++ unfinished = ['%'] ∨
        escapes count ++ unfinished = ['%', '2'] := by
    cases count with
    | zero => exact .inr hunfinished
    | succ count => exact .inl ⟨_, rfl⟩
  rw [← heq] at hform
  rcases hprev with rfl | rfl | rfl
  · rcases hform with ⟨rest, h⟩ | h | h | h
    · exact hstart rfl (List.cons.inj h).1
    · cases h
    · exact hstart rfl (List.cons.inj h).1
    · exact hstart rfl (List.cons.inj h).1
  · rcases hform with ⟨rest, h⟩ | h | h | h
    · exact htwo rfl (List.cons.inj (List.cons.inj h).2).1
    · cases h
    · cases h
    · exact htwo rfl (List.cons.inj (List.cons.inj h).2).1
  · rcases hform with ⟨rest, h⟩ | h | h | h
    · exact he rfl (List.cons.inj (List.cons.inj (List.cons.inj h).2).2).1
    · cases h
    · cases h
    · cases h

theorem none_eq_some_iff (hprev : EscapeState prev) (hstart : prev = '\x00' → c ≠ '%')
    (htwo : prev = '%' → c ≠ '2') (he : prev = '2' → c ≠ 'e') (n : UInt8) (p : ℕ → Prop) :
    (none : Option UInt8) = some n ↔
      ∃ count, FinishesEscapes prev (c :: letters) count ∧ p count := by
  refine iff_of_false (Option.some_ne_none n).symm ?_
  rintro ⟨count, hfinishes, -⟩
  exact not_finishesEscapes hprev hstart htwo he hfinishes

theorem escapeLetters_dot : escapeLetters ('.' :: segment) = escapeLetters segment := rfl

theorem escapeLetters_cons (hc : c ≠ '.') :
    escapeLetters (c :: segment) = (if c = 'E' then 'e' else c) :: escapeLetters segment := by
  simp [escapeLetters, hc]

theorem dots_add (dots : UInt8) (count : ℕ) :
    dots + 1 + UInt8.ofNat count = dots + UInt8.ofNat (count + 1) := by
  rw [UInt8.ofNat_add, UInt8.add_assoc, UInt8.add_comm 1]
  rfl

/-- What the automaton counts in a segment without tabs and newlines. -/
theorem countDots_eq_some_iff (hprev : EscapeState prev)
    (hun : ∀ c ∈ segment, isTabOrNewline c = false) (dots n : UInt8) :
    countDots standardUriParsingOptions segment prev dots = some n ↔
      ∃ count, FinishesEscapes prev (escapeLetters segment) count ∧
        n = dots + UInt8.ofNat (segment.count '.' + count) := by
  induction segment generalizing prev dots with
  | nil =>
      rw [countDots, Option.some.injEq]
      constructor
      · rintro rfl
        exact ⟨0, (finishesEscapes_nil hprev).mpr rfl, (UInt8.add_zero dots).symm⟩
      · rintro ⟨count, hfinishes, rfl⟩
        rw [(finishesEscapes_nil hprev).mp hfinishes]
        exact (UInt8.add_zero dots).symm
  | cons c segment ih =>
      have htab : ¬(isTabOrNewline c = true ∧
          standardUriParsingOptions.ignoreTabsOrNewlines = true) := by
        rintro ⟨h, -⟩
        rw [hun c List.mem_cons_self] at h
        cases h
      have hrest : ∀ d ∈ segment, isTabOrNewline d = false := fun d hd =>
        hun d (List.mem_cons_of_mem c hd)
      rw [countDots, if_neg htab]
      by_cases hdot : c = '.'
      · subst hdot
        rw [if_neg (by decide), if_neg (by decide), if_neg (by decide), if_pos rfl,
          ih hprev hrest, escapeLetters_dot, List.count_cons_self]
        simp only [dots_add, Nat.add_right_comm]
      · rw [escapeLetters_cons hdot, List.count_cons_of_ne hdot]
        by_cases hpercent : c = '%'
        · subst hpercent
          rw [if_pos rfl]
          by_cases hstart : prev = '\x00'
          · subst hstart
            rw [if_neg (not_not_intro rfl), ih (.inr (.inl rfl)) hrest]
            exact Iff.rfl
          · rw [if_pos hstart]
            exact none_eq_some_iff hprev (fun h => absurd h hstart) (fun _ => by decide)
              (fun _ => by decide) n _
        · rw [if_neg hpercent]
          by_cases htwo : c = '2'
          · subst htwo
            rw [if_pos rfl]
            by_cases hstart : prev = '%'
            · subst hstart
              rw [if_neg (not_not_intro rfl), ih (.inr (.inr rfl)) hrest]
              exact Iff.rfl
            · rw [if_pos hstart]
              exact none_eq_some_iff hprev (fun _ => by decide) (fun h => absurd h hstart)
                (fun _ => by decide) n _
          · rw [if_neg htwo]
            by_cases he : c = 'e' ∨ c = 'E'
            · have hletter : (if c = 'E' then 'e' else c) = 'e' := by
                rcases he with rfl | rfl <;> rfl
              rw [if_pos he, hletter]
              by_cases hstart : prev = '2'
              · subst hstart
                rw [if_neg (not_not_intro rfl), ih (.inl rfl) hrest]
                constructor
                · rintro ⟨count, hfinishes, rfl⟩
                  exact ⟨count + 1, finishesEscapes_e.mpr ⟨count, rfl, hfinishes⟩, dots_add _ _⟩
                · rintro ⟨count, hfinishes, rfl⟩
                  obtain ⟨finished, rfl, hrest'⟩ := finishesEscapes_e.mp hfinishes
                  exact ⟨finished, hrest', (dots_add _ _).symm⟩
              · rw [if_pos hstart]
                exact none_eq_some_iff hprev (fun _ => by decide) (fun _ => by decide)
                  (fun h => absurd h hstart) n _
            · rw [if_neg he, if_neg hdot]
              have hletter : (if c = 'E' then 'e' else c) = c := if_neg fun h => he (.inr h)
              rw [hletter]
              exact none_eq_some_iff hprev (fun _ => hpercent) (fun _ => htwo)
                (fun _ h => he (.inl h)) n _

theorem countDots_filter (segment : List Char) (prev : Char) (dots : UInt8) :
    countDots standardUriParsingOptions segment prev dots =
      countDots standardUriParsingOptions (segment.filter (!isTabOrNewline ·)) prev dots := by
  induction segment generalizing prev dots with
  | nil => rfl
  | cons c segment ih =>
      cases htab : isTabOrNewline c with
      | true =>
          have hne : ∀ d ∈ ['%', '2', 'e', 'E', '.'], c ≠ d := by
            rintro d hd rfl
            have hall : ∀ d ∈ ['%', '2', 'e', 'E', '.'], isTabOrNewline d = false := by decide
            rw [hall c hd] at htab
            cases htab
          rw [List.filter_cons_of_neg (by rw [htab]; exact Bool.false_ne_true), ← ih, countDots,
            if_neg (hne '%' (by decide)), if_neg (hne '2' (by decide)),
            if_neg (not_or.mpr ⟨hne 'e' (by decide), hne 'E' (by decide)⟩),
            if_neg (hne '.' (by decide)), if_pos ⟨htab, rfl⟩]
      | false =>
          rw [List.filter_cons_of_pos (by rw [htab]; rfl), countDots, countDots]
          simp only [ih]

end Automaton

/-! ## What is taken for dots -/

/-- The segment without its tabs and newlines. -/
def plainSegment (segment : List Char) : List Char := segment.filter (!isTabOrNewline ·)

/-- A segment of one or two dots, or of their escapes. -/
def IsDots (segment : List Char) : Prop :=
  isSingleDot segment = true ∨ isDoubleDot segment = true

/-- A segment that is no dots, but is taken for them: dots stand inside of escapes, an escape
is unfinished, or the dots are one or two beyond a multiple of 256. -/
def MistakenForDots (segment : List Char) : Prop :=
  ¬IsDots segment ∧ ∃ count, FinishesEscapes '\x00' (escapeLetters segment) count ∧
    ((segment.count '.' + count) % 256 = 1 ∨ (segment.count '.' + count) % 256 = 2)

/-- Dots are found exactly in segments of dots, and any other segment changes nothing. -/
def FindsDots {σ : Type} (segment : List Char) (e : ComponentEncoder σ)
    (result : Run (Bool × ComponentEncoder σ)) : Prop :=
  (IsDots segment → ∃ e', result = .ok (true, e')) ∧ (¬IsDots segment → result = .ok (false, e))

/-- The automaton ends with one or two dots. -/
def CountsDots (segment : List Char) : Prop :=
  countDots standardUriParsingOptions segment '\x00' 0 = some 1 ∨
    countDots standardUriParsingOptions segment '\x00' 0 = some 2

section Found

variable {segment : List Char}

theorem IsDots.counts (h : IsDots segment) : CountsDots segment := by
  rcases h with h | h
  · exact .inl (countDots_of_isSingleDot h)
  · exact .inr (countDots_of_isDoubleDot h)

theorem ofNat_eq_iff {count : ℕ} {n : UInt8} : n = 0 + UInt8.ofNat count ↔ count % 256 = n.toNat := by
  rw [UInt8.zero_add, ← UInt8.toNat_inj, UInt8.toNat_ofNat', eq_comm]

theorem countsDots_iff (hun : ∀ c ∈ segment, isTabOrNewline c = false) :
    CountsDots segment ↔ ∃ count, FinishesEscapes '\x00' (escapeLetters segment) count ∧
      ((segment.count '.' + count) % 256 = 1 ∨ (segment.count '.' + count) % 256 = 2) := by
  rw [CountsDots, countDots_eq_some_iff (.inl rfl) hun, countDots_eq_some_iff (.inl rfl) hun,
    ← exists_or]
  simp only [ofNat_eq_iff, ← and_or_left]
  rfl

theorem handleDotsInPaths_of_counts (kind : ContextKind) (e : ComponentEncoder kind.Out)
    (h : CountsDots (slice e.beg e.ctx.pos)) :
    ∃ e', handleDotsInPaths standardUriParsingOptions kind.output e = .ok (true, e') := by
  have hhandled : standardUriParsingOptions.handleDotsInPaths = true := rfl
  rw [handleDotsInPaths, if_pos hhandled]
  rcases h with h | h
  · rw [h]
    cases kind <;> exact ⟨_, rfl⟩
  · rw [h]
    cases kind <;> exact ⟨_, rfl⟩

theorem handleDotsInPaths_of_not_counts (kind : ContextKind) (e : ComponentEncoder kind.Out)
    (h : ¬CountsDots (slice e.beg e.ctx.pos)) :
    handleDotsInPaths standardUriParsingOptions kind.output e = .ok (false, e) := by
  have hhandled : standardUriParsingOptions.handleDotsInPaths = true := rfl
  rw [handleDotsInPaths, if_pos hhandled]
  split
  · rename_i hone
    exact absurd (.inl hone) h
  · rename_i htwo
    exact absurd (.inr htwo) h
  · rfl

end Found

end Webpp.Uri
