import Webpp.Uri.HostIpv4Contract

/-!
# Hosts that end in a number

`is_possible_ends_with_ipv4` goes backwards over the last label of a host. It stops at the
first character of the host without a look at it, and a dot at the end of the host is skipped
only if two characters are before it.
-/

namespace Webpp.Uri

open Webpp.Text Ipv4

variable {σ : Type} {text : List Char} {c : Char} {rest : List Char}

/-! ## The numbers of labels -/

/-- The end of a hexadecimal number, read backwards. -/
def HexEnd (backwards rest : List Char) : Prop :=
  ∃ digits x, backwards = digits ++ x :: rest ∧ (x = 'x' ∨ x = 'X') ∧
    ∀ c ∈ digits, isHexDigit c = true

/-- A label that makes the host one that ends in a number. -/
def IsNumber (label : List Char) : Prop :=
  (label ≠ [] ∧ ∀ c ∈ label, isDigit c = true) ∨
    ∃ x digits, label = '0' :: x :: digits ∧ (x = 'x' ∨ x = 'X') ∧
      ∀ c ∈ digits, isHexDigit c = true

theorem isSome_radixDigit_sixteen (c : Char) : (radixDigit 16 c).isSome = isHexDigit c := by
  rw [radixDigit, isHexDigit]
  cases hd : hexDigitSafe c with
  | none => rfl
  | some d => simp [hexDigitSafe_lt hd]

theorem isDigit_of_radixDigit {base : ℕ} (hbase : base ≤ 10)
    (h : (radixDigit base c).isSome = true) : isDigit c = true := by
  rw [radixDigit_eq hbase] at h
  split at h
  · rename_i hdigit
    exact hdigit.1
  · cases h

theorem forall_isDigit_of_numeral {base n : ℕ} (hbase : base ≤ 10)
    (h : (numeral (radixDigit base) base n text).isSome = true) : ∀ c ∈ text, isDigit c = true :=
  fun c hc => isDigit_of_radixDigit hbase (isSome_numeral_iff.mp h c hc)

theorem isNumber_of_ipv4Number {label : List Char} (h : (ipv4Number label).isSome = true) :
    IsNumber label := by
  rw [ipv4Number, numberWith] at h
  split at h
  · cases h
  · rename_i hne
    obtain ⟨c, text, rfl⟩ := List.exists_cons_of_ne_nil hne
    by_cases hc : c = '0'
    · subst hc
      cases text with
      | nil => exact .inl ⟨hne, by decide⟩
      | cons x digits =>
          by_cases hx : x = 'x' ∨ x = 'X'
          · rw [show numberBase ('0' :: x :: digits) = (16, digits) from if_pos hx] at h
            refine .inr ⟨x, digits, rfl, hx, fun d hd => ?_⟩
            rw [← isSome_radixDigit_sixteen]
            exact isSome_numeral_iff.mp h d hd
          · rw [show numberBase ('0' :: x :: digits) = (8, x :: digits) from if_neg hx] at h
            have hdigits := forall_isDigit_of_numeral (Nat.le_add_right 8 2) h
            refine .inl ⟨hne, fun d hd => ?_⟩
            rcases List.mem_cons.mp hd with rfl | hd
            · rfl
            · exact hdigits d hd
    · rw [numberBase_of_ne hc] at h
      exact .inl ⟨hne, forall_isDigit_of_numeral le_rfl h⟩

theorem endsInNumber_iff (host : List Char) :
    endsInNumber host = true ↔ IsNumber ((parts host).getLastD []) := by
  rw [endsInNumber, Bool.or_eq_true, Bool.and_eq_true, List.all_eq_true, Bool.not_eq_true',
    List.isEmpty_eq_false_iff]
  constructor
  · rintro (hdigits | hnumber)
    · exact .inl hdigits
    · exact isNumber_of_ipv4Number hnumber
  · rintro (hdigits | ⟨x, digits, hlabel, hx, hhex⟩)
    · exact .inl hdigits
    · right
      rw [hlabel, ipv4Number, numberWith, if_neg (List.cons_ne_nil _ _),
        show numberBase ('0' :: x :: digits) = (16, digits) from if_pos hx, isSome_numeral_iff]
      intro c hc
      rw [isSome_radixDigit_sixteen]
      exact hhex c hc

/-! ## The scan -/

/-- The text before the part that is scanned ends the scan. `bare` is what an `x` behind it
results in, and `zero` what an `x` and a 0 result in. -/
structure Barrier (start : ℕ) (before : List Char) (bare zero : Bool) : Prop where
  inside : start < before.length
  stops : ∀ mustBeHex, endsWithOctet start before mustBeHex = .ok !mustBeHex
  bare : ∀ x mustBeHex, x = 'x' ∨ x = 'X' →
    endsWithOctet start (x :: before) mustBeHex = .ok bare
  zero : ∀ x mustBeHex, x = 'x' ∨ x = 'X' →
    endsWithOctet start (x :: '0' :: before) mustBeHex = .ok zero

section Scan

variable {start : ℕ} {before backwards : List Char} {bare zero : Bool}

theorem isHexDigit_x {x : Char} (hx : x = 'x' ∨ x = 'X') : isHexDigit x = false := by
  rcases hx with rfl | rfl
  · rfl
  · rfl

/-- Behind a character that is no `x`, the digits of a hexadecimal number go on. -/
theorem hexEnd_cons (hc : c ≠ 'x' ∧ c ≠ 'X') :
    HexEnd (c :: backwards) rest ↔ isHexDigit c = true ∧ HexEnd backwards rest := by
  constructor
  · rintro ⟨digits, x, heq, hx, hhex⟩
    cases digits with
    | nil =>
        rw [List.nil_append, List.cons.injEq] at heq
        rcases hx with rfl | rfl
        · exact absurd heq.1 hc.1
        · exact absurd heq.1 hc.2
    | cons d digits =>
        rw [List.cons_append, List.cons.injEq] at heq
        rw [heq.1]
        exact ⟨hhex d List.mem_cons_self, digits, x, heq.2, hx,
          fun c' hc' => hhex c' (List.mem_cons_of_mem d hc')⟩
  · rintro ⟨hhex, digits, x, heq, hx, hdigits⟩
    refine ⟨c :: digits, x, by rw [heq, List.cons_append], hx, fun c' hc' => ?_⟩
    rcases List.mem_cons.mp hc' with rfl | hc'
    · exact hhex
    · exact hdigits c' hc'

/-- At an `x` no digits are behind it. -/
theorem hexEnd_x {x : Char} (hx : x = 'x' ∨ x = 'X') :
    HexEnd (x :: backwards) rest ↔ backwards = rest := by
  constructor
  · rintro ⟨digits, y, heq, hy, hhex⟩
    cases digits with
    | nil =>
        rw [List.nil_append, List.cons.injEq] at heq
        exact heq.2
    | cons d digits =>
        rw [List.cons_append, List.cons.injEq] at heq
        have hno := isHexDigit_x hx
        rw [heq.1, hhex d List.mem_cons_self] at hno
        cases hno
  · rintro rfl
    exact ⟨[], x, rfl, hx, by simp⟩

section Steps

variable {c : Char} {rest : List Char} (hinside : rest.length ≠ start) (hdot : c ≠ '.')
  (mustBeHex : Bool)

include hinside hdot

theorem endsWithOctet_digit (hc : isDigit c = true) :
    endsWithOctet start (c :: rest) mustBeHex = endsWithOctet start rest mustBeHex := by
  rw [endsWithOctet.eq_def]
  simp only
  rw [if_neg hinside, if_neg hdot, if_pos hc]

theorem endsWithOctet_hex (hc : isDigit c = false) (hx : ¬(c = 'x' ∨ c = 'X'))
    (hhex : isHexDigit c = true) :
    endsWithOctet start (c :: rest) mustBeHex = endsWithOctet start rest true := by
  rw [endsWithOctet.eq_def]
  simp only
  rw [if_neg hinside, if_neg hdot, if_neg (by rw [hc]; exact Bool.false_ne_true),
    if_neg fun h => hx h.symm, if_pos hhex]

theorem endsWithOctet_other (hc : isDigit c = false) (hx : ¬(c = 'x' ∨ c = 'X'))
    (hhex : isHexDigit c = false) : endsWithOctet start (c :: rest) mustBeHex = .ok false := by
  rw [endsWithOctet.eq_def]
  simp only
  rw [if_neg hinside, if_neg hdot, if_neg (by rw [hc]; exact Bool.false_ne_true),
    if_neg fun h => hx h.symm, if_neg (by rw [hhex]; exact Bool.false_ne_true)]
  rfl

end Steps

/-- An `x` without a 0 before it. -/
theorem endsWithOctet_x {x d : Char} (hinside : start < (d :: rest).length)
    (hx : x = 'x' ∨ x = 'X') (hd : d ≠ '0') (mustBeHex : Bool) :
    endsWithOctet start (x :: d :: rest) mustBeHex = .ok false := by
  have hdot : x ≠ '.' := by rcases hx with rfl | rfl <;> decide
  have hdigit : ¬isDigit x = true := by rcases hx with rfl | rfl <;> decide
  rw [endsWithOctet.eq_def]
  simp only
  rw [if_neg hinside.ne', if_neg hdot, if_neg hdigit, if_pos hx.symm,
    if_neg (Nat.not_lt.mpr hinside)]
  split
  · rename_i heq
    exact absurd (List.cons.inj heq).1 hd
  · rfl

/-- An `x` and a 0 in the middle of the host. -/
theorem endsWithOctet_zero {x d : Char} (hinside : start < (d :: rest).length)
    (hx : x = 'x' ∨ x = 'X') (mustBeHex : Bool) :
    endsWithOctet start (x :: '0' :: d :: rest) mustBeHex = .ok (d == '.') := by
  have hdot : x ≠ '.' := by rcases hx with rfl | rfl <;> decide
  have hdigit : ¬isDigit x = true := by rcases hx with rfl | rfl <;> decide
  have hlong : start < ('0' :: d :: rest).length := Nat.lt_succ_of_lt hinside
  rw [endsWithOctet.eq_def]
  simp only
  rw [if_neg hlong.ne', if_neg hdot, if_neg hdigit, if_pos hx.symm, if_neg (Nat.not_lt.mpr hlong),
    if_neg hinside.ne']
  rfl

/-- Before an `x` there has to be a 0 and the start of the label. -/
theorem endsWithOctet_at_x (hbefore : Barrier start before bare zero) (hdot : '.' ∉ backwards)
    {x : Char} (hx : x = 'x' ∨ x = 'X') (mustBeHex : Bool) :
    ∃ found, endsWithOctet start (x :: backwards ++ before) mustBeHex = .ok found ∧
      (found = true ↔ (backwards = [] ∧ bare = true) ∨ (backwards = ['0'] ∧ zero = true)) := by
  have hinside : ∀ text, start < (text ++ before).length := by
    intro text
    rw [List.length_append]
    exact Nat.lt_add_left _ hbefore.inside
  cases backwards with
  | nil => exact ⟨bare, hbefore.bare x mustBeHex hx, by simp⟩
  | cons d backwards =>
      by_cases hd : d = '0'
      · subst hd
        cases backwards with
        | nil => exact ⟨zero, hbefore.zero x mustBeHex hx, by simp⟩
        | cons e backwards =>
            have he : (e == '.') = false := beq_eq_false_iff_ne.mpr fun heq =>
              hdot (by rw [heq]; simp)
            refine ⟨e == '.', endsWithOctet_zero (hinside (e :: backwards)) hx mustBeHex, ?_⟩
            simp [he]
      · refine ⟨false, endsWithOctet_x (hinside (d :: backwards)) hx hd mustBeHex, ?_⟩
        simp [hd]

theorem endsWithOctet_scan (hbefore : Barrier start before bare zero) (hdot : '.' ∉ backwards)
    (mustBeHex : Bool) :
    ∃ found, endsWithOctet start (backwards ++ before) mustBeHex = .ok found ∧
      (found = true ↔
        ((∀ c ∈ backwards, isDigit c = true) ∧ mustBeHex = false) ∨
          (HexEnd backwards [] ∧ bare = true) ∨ (HexEnd backwards ['0'] ∧ zero = true)) := by
  induction backwards generalizing mustBeHex with
  | nil =>
      refine ⟨_, hbefore.stops mustBeHex, ?_⟩
      have hno : ∀ rest, ¬HexEnd [] rest := by
        rintro rest ⟨digits, x, heq, -⟩
        exact absurd heq.symm (by simp)
      simp [hno]
  | cons c backwards ih =>
      have hinside : (backwards ++ before).length ≠ start := by
        rw [List.length_append]
        have := hbefore.inside
        omega
      have hc : c ≠ '.' := fun heq => hdot (heq ▸ List.mem_cons_self)
      have hrest := fun hmem => hdot (List.mem_cons_of_mem c hmem)
      by_cases hx : c = 'x' ∨ c = 'X'
      · obtain ⟨found, hscan, hfound⟩ := endsWithOctet_at_x hbefore hrest hx mustBeHex
        have hdigit : isDigit c = false := by rcases hx with rfl | rfl <;> rfl
        refine ⟨found, hscan, ?_⟩
        rw [hfound, hexEnd_x hx, hexEnd_x hx]
        simp [hdigit]
      · have hends : ∀ rest, HexEnd (c :: backwards) rest ↔
            isHexDigit c = true ∧ HexEnd backwards rest := fun rest =>
          hexEnd_cons (not_or.mp hx)
        rw [List.cons_append]
        cases hdigit : isDigit c with
        | true =>
            obtain ⟨found, hscan, hfound⟩ := ih hrest mustBeHex
            refine ⟨found, by rw [endsWithOctet_digit hinside hc _ hdigit, hscan], ?_⟩
            rw [hfound, hends, hends]
            simp [hdigit, isHexDigit_of_isDigit hdigit]
        | false =>
            cases hhex : isHexDigit c with
            | true =>
                obtain ⟨found, hscan, hfound⟩ := ih hrest true
                refine ⟨found, by rw [endsWithOctet_hex hinside hc _ hdigit hx hhex, hscan], ?_⟩
                rw [hfound, hends, hends]
                simp [hdigit, hhex]
            | false =>
                refine ⟨false, endsWithOctet_other hinside hc _ hdigit hx hhex, ?_⟩
                rw [hends, hends]
                simp [hdigit, hhex]

theorem Barrier.dot (h : start ≤ before.length) : Barrier start ('.' :: before) false true where
  inside := Nat.lt_succ_of_le h
  stops mustBeHex := by
    rw [endsWithOctet.eq_def]
    simp only
    split
    · rfl
    · rfl
  bare x mustBeHex hx := endsWithOctet_x (Nat.lt_succ_of_le h) hx (by decide) mustBeHex
  zero x mustBeHex hx := endsWithOctet_zero (Nat.lt_succ_of_le h) hx mustBeHex

theorem Barrier.first (h : before.length = start) (hc : c ≠ '.') :
    Barrier start (c :: before) (c == '0') false where
  inside := Nat.lt_succ_of_le h.ge
  stops mustBeHex := by
    rw [endsWithOctet.eq_def]
    simp only
    rw [if_pos h]
    rfl
  bare x mustBeHex hx := by
    by_cases hzero : c = '0'
    · have hdot : x ≠ '.' := by rcases hx with rfl | rfl <;> decide
      have hdigit : ¬isDigit x = true := by rcases hx with rfl | rfl <;> decide
      have hlong : start < (c :: before).length := Nat.lt_succ_of_le h.ge
      subst hzero
      rw [endsWithOctet.eq_def]
      simp only
      rw [if_neg hlong.ne', if_neg hdot, if_neg hdigit, if_pos hx.symm,
        if_neg (Nat.not_lt.mpr hlong), if_pos h]
      rfl
    · rw [endsWithOctet_x (Nat.lt_succ_of_le h.ge) hx hzero, beq_eq_false_iff_ne.mpr hzero]
  zero x mustBeHex hx := by
    rw [endsWithOctet_zero (Nat.lt_succ_of_le h.ge) hx, beq_eq_false_iff_ne.mpr hc]

end Scan

/-! ## The last label -/

theorem not_isNumber_nil : ¬IsNumber [] := by
  rintro (⟨hne, -⟩ | ⟨x, digits, heq, -⟩)
  · exact hne rfl
  · cases heq

theorem hexEnd_reverse_iff (label rest : List Char) : HexEnd label.reverse rest ↔
    ∃ x digits, label = rest.reverse ++ x :: digits ∧ (x = 'x' ∨ x = 'X') ∧
      ∀ c ∈ digits, isHexDigit c = true := by
  constructor
  · rintro ⟨digits, x, heq, hx, hhex⟩
    refine ⟨x, digits.reverse, ?_, hx, fun c hc => hhex c (List.mem_reverse.mp hc)⟩
    rw [← List.reverse_reverse label, heq]
    simp
  · rintro ⟨x, digits, rfl, hx, hhex⟩
    exact ⟨digits.reverse, x, by simp, hx, fun c hc => hhex c (List.mem_reverse.mp hc)⟩

theorem endsWithOctet_label (before front : List Char) {label : List Char} (hlabel : '.' ∉ label) :
    ∃ found, endsWithOctet before.length
        ((front ++ '.' :: label).reverse ++ before.reverse) false = .ok found ∧
      (found = true ↔ label = [] ∨ IsNumber label) := by
  have hbarrier : Barrier before.length ('.' :: (front.reverse ++ before.reverse)) false true := by
    refine .dot ?_
    rw [List.length_append, List.length_reverse, List.length_reverse]
    exact Nat.le_add_left ..
  obtain ⟨found, hscan, hfound⟩ := endsWithOctet_scan hbarrier
    (fun hmem => hlabel (List.mem_reverse.mp hmem)) false
  refine ⟨found, ?_, ?_⟩
  · rw [← hscan]
    simp
  · rw [hfound, hexEnd_reverse_iff label ['0'], IsNumber]
    by_cases hnil : label = []
    · simp [hnil]
    · simp [hnil]

/-- The scan of a host without a dot. Its first character is not looked at if digits follow. -/
theorem endsWithOctet_only (before : List Char) (hdot : '.' ∉ c :: text) :
    ∃ found, endsWithOctet before.length ((c :: text).reverse ++ before.reverse) false = .ok found ∧
      (found = true ↔
        (isDigit c = false ∧ ∀ d ∈ text, isDigit d = true) ∨ IsNumber (c :: text)) := by
  have hc : c ≠ '.' := fun heq => hdot (heq ▸ List.mem_cons_self)
  have hlength : before.reverse.length = before.length := List.length_reverse
  have hbarrier := Barrier.first hlength hc
  obtain ⟨found, hscan, hfound⟩ := endsWithOctet_scan hbarrier
    (fun hmem => hdot (List.mem_cons_of_mem c (List.mem_reverse.mp hmem))) false
  refine ⟨found, ?_, ?_⟩
  · rw [← hscan]
    simp
  · rw [hfound, hexEnd_reverse_iff text [], IsNumber]
    have hhex : (∃ x digits, c :: text = '0' :: x :: digits ∧ (x = 'x' ∨ x = 'X') ∧
        ∀ d ∈ digits, isHexDigit d = true) ↔ (∃ x digits, text = x :: digits ∧
          (x = 'x' ∨ x = 'X') ∧ ∀ d ∈ digits, isHexDigit d = true) ∧ c = '0' := by
      simp only [List.cons.injEq, and_assoc, exists_and_left, and_comm]
    rw [hhex]
    cases hdigit : isDigit c with
    | true => simp [hdigit]
    | false => simp [hdigit]

/-- A text whose last label is no number, but is taken for one. -/
def Misjudged (text : List Char) : Prop :=
  (∃ front, text = front ++ ['.']) ∨
    ∃ c digits, text = c :: digits ∧ c ≠ '.' ∧ isDigit c = false ∧ ∀ d ∈ digits, isDigit d = true

theorem not_mem_of_digits {digits : List Char} (hc : c ≠ '.')
    (hdigits : ∀ d ∈ digits, isDigit d = true) : '.' ∉ c :: digits := by
  intro hmem
  rcases List.mem_cons.mp hmem with heq | hmem
  · exact hc heq.symm
  · exact absurd (hdigits '.' hmem) (by decide)

theorem Misjudged.not_isNumber (h : Misjudged text) :
    ¬IsNumber (lastLabel text) := by
  rcases h with ⟨front, rfl⟩ | ⟨c, digits, rfl, hc, hdigit, hdigits⟩
  · rw [lastLabel_append_dot List.not_mem_nil]
    exact not_isNumber_nil
  · rw [lastLabel_of_not_mem (not_mem_of_digits hc hdigits)]
    rintro (⟨-, hall⟩ | ⟨x, hex, heq, -⟩)
    · rw [hall c List.mem_cons_self] at hdigit
      cases hdigit
    · rw [(List.cons.inj heq).1] at hdigit
      cases hdigit

theorem endsWithOctet_text (before : List Char) (hne : text ≠ []) :
    ∃ found, endsWithOctet before.length (text.reverse ++ before.reverse) false = .ok found ∧
      (found = true ↔ Misjudged text ∨ IsNumber (lastLabel text)) := by
  rcases exists_lastLabel text with hdot | ⟨front, label, rfl, hlabel⟩
  · obtain ⟨c, digits, rfl⟩ := List.exists_cons_of_ne_nil hne
    obtain ⟨found, hscan, hfound⟩ := endsWithOctet_only before hdot
    refine ⟨found, hscan, ?_⟩
    rw [hfound, lastLabel_of_not_mem hdot]
    refine or_congr_left ?_
    constructor
    · rintro ⟨hc, hdigits⟩
      exact .inr ⟨c, digits, rfl, fun heq => hdot (heq ▸ List.mem_cons_self), hc, hdigits⟩
    · rintro (⟨front, heq⟩ | ⟨c', digits', heq, -, hc, hdigits⟩)
      · exact absurd (by rw [heq]; simp) hdot
      · rw [List.cons.injEq] at heq
        rw [heq.1, heq.2]
        exact ⟨hc, hdigits⟩
  · obtain ⟨found, hscan, hfound⟩ := endsWithOctet_label before front hlabel
    refine ⟨found, hscan, ?_⟩
    rw [hfound, lastLabel_append_dot hlabel]
    refine or_congr_left ?_
    constructor
    · rintro rfl
      exact .inl ⟨front, rfl⟩
    · rintro (⟨front', heq⟩ | ⟨c, digits, heq, hc, -, hdigits⟩)
      · have hlast := congrArg lastLabel heq
        rw [lastLabel_append_dot hlabel, lastLabel_append_dot List.not_mem_nil] at hlast
        exact hlast
      · exact absurd (by rw [← heq]; simp) (not_mem_of_digits hc hdigits)

/-! ## The whole check -/

/-- The check of a host agrees with the standard wherever in a text the host stands. -/
def ChecksEnd (out : σ) (host : List Char) : Prop :=
  ∀ before rest status scheme, ∃ ctx',
    isPossibleEndsWithIpv4 standardUriParsingOptions (host ++ rest)
        ⟨before ++ (host ++ rest), rest, out, status, scheme⟩ =
      .ok (endsInNumber host, ctx')

/-- The hosts that are misjudged: a lone dot, a digit and a dot, more than one dot at the end,
and digits behind a first character that is none. -/
def MisreadEnd (host : List Char) : Prop :=
  host = ['.'] ∨ (∃ d, isDigit d = true ∧ host = [d, '.']) ∨
    (∃ front, front ≠ [] ∧ host = front ++ ['.', '.']) ∨
    ∃ c digits, isDigit c = false ∧ c ≠ '.' ∧ (∀ d ∈ digits, isDigit d = true) ∧
      (host = c :: digits ∨ digits ≠ [] ∧ host = c :: digits ++ ['.'])

section Check

variable {out : σ} {host : List Char}

/-- What is found, with the context. -/
def foundIn (ctx : Ctx σ) (x : Run Bool) : Run (Bool × Ctx σ) := do
  let found ← x
  pure (found, ctx)

theorem length_before (before behind : List Char) :
    (before ++ behind).length - behind.length = before.length := by
  rw [List.length_append, Nat.add_sub_cancel]

theorem slice_host (before rest : List Char) :
    slice (before ++ (host ++ rest)) rest = before ++ host := by
  rw [← List.append_assoc, slice_append]

theorem isPossibleEndsWithIpv4_plain (before rest : List Char) (status : Status)
    (scheme : SchemeType) (hc : c ≠ '.') :
    isPossibleEndsWithIpv4 standardUriParsingOptions ((text ++ [c]) ++ rest)
        ⟨before ++ ((text ++ [c]) ++ rest), rest, out, status, scheme⟩ =
      foundIn ⟨before ++ ((text ++ [c]) ++ rest), rest, out, status, scheme⟩
        (endsWithOctet before.length ((text ++ [c]).reverse ++ before.reverse) false) := by
  rw [isPossibleEndsWithIpv4]
  simp only [length_before, slice_host]
  rw [List.reverse_append, List.reverse_concat, List.cons_append, pruneDots, if_neg hc]
  rfl

/-- A dot at the end is skipped, unless one character is before it. -/
theorem isPossibleEndsWithIpv4_dot (before rest : List Char) (status : Status)
    (scheme : SchemeType) (text : List Char) :
    isPossibleEndsWithIpv4 standardUriParsingOptions ((text ++ ['.']) ++ rest)
        ⟨before ++ ((text ++ ['.']) ++ rest), rest, out, status, scheme⟩ =
      foundIn ⟨before ++ ((text ++ ['.']) ++ rest), rest, out,
          status.setWarning .ipv4TrailingEmptyOctet, scheme⟩
        (if text.length = 1 then .ok false
          else endsWithOctet before.length (text.reverse ++ before.reverse) false) := by
  have hlength : (text.reverse ++ before.reverse).length = before.length + 1 ↔
      text.length = 1 := by
    rw [List.length_append, List.length_reverse, List.length_reverse]
    omega
  rw [isPossibleEndsWithIpv4]
  simp only [length_before, slice_host]
  rw [List.reverse_append, List.reverse_concat, List.cons_append, pruneDots, if_pos rfl]
  simp only [hlength]
  split
  · rfl
  · rfl

theorem exists_ok_iff {x : Run Bool} {b b' : Bool} {ctx : Ctx σ} (h : x = .ok b) :
    (∃ ctx', foundIn ctx x = .ok (b', ctx')) ↔ b = b' := by
  rw [h]
  constructor
  · rintro ⟨ctx', heq⟩
    exact congrArg Prod.fst (Except.ok.inj heq)
  · rintro rfl
    exact ⟨ctx, rfl⟩

/-- A scan that finds what it finds agrees with the standard unless the text is misjudged. -/
theorem found_eq_iff {found : Bool}
    (hfound : found = true ↔ Misjudged text ∨ IsNumber (lastLabel text))
    (hends : endsInNumber host = true ↔ IsNumber (lastLabel text)) :
    found = endsInNumber host ↔ ¬Misjudged text := by
  rw [Bool.eq_iff_iff, hfound, hends]
  constructor
  · intro h hmis
    exact hmis.not_isNumber (h.mp (.inl hmis))
  · intro hno
    exact or_iff_right hno

theorem checksEnd_iff_of {p : Prop} (h : ∀ before rest status scheme,
    (∃ ctx', isPossibleEndsWithIpv4 standardUriParsingOptions (host ++ rest)
      ⟨before ++ (host ++ rest), rest, out, status, scheme⟩ =
        .ok (endsInNumber host, ctx')) ↔ p) : ChecksEnd out host ↔ p :=
  ⟨fun hcheck => (h [] [] .start .notSpecial).mp (hcheck [] [] .start .notSpecial),
    fun hp before rest status scheme => (h before rest status scheme).mpr hp⟩

theorem checksEnd_plain (hc : c ≠ '.') :
    ChecksEnd out (text ++ [c]) ↔ ¬Misjudged (text ++ [c]) := by
  have hlast : lastLabel (text ++ [c]) ≠ [] := by
    rcases exists_lastLabel (text ++ [c]) with hdot | ⟨front, label, heq, hlabel⟩
    · rw [lastLabel_of_not_mem hdot]
      exact List.concat_ne_nil c text
    · rw [heq, lastLabel_append_dot hlabel]
      rintro rfl
      exact hc (List.singleton_inj.mp (List.append_inj' heq rfl).2)
  have hends : endsInNumber (text ++ [c]) = true ↔ IsNumber (lastLabel (text ++ [c])) := by
    rw [endsInNumber_iff, parts_getLastD hlast]
  refine checksEnd_iff_of fun before rest status scheme => ?_
  obtain ⟨found, hscan, hfound⟩ := endsWithOctet_text before (List.concat_ne_nil c text)
  rw [isPossibleEndsWithIpv4_plain before rest status scheme hc, exists_ok_iff hscan,
    found_eq_iff hfound hends]

theorem checksEnd_dot (hne : text ≠ []) (hlength : text.length ≠ 1) :
    ChecksEnd out (text ++ ['.']) ↔ ¬Misjudged text := by
  have hends : endsInNumber (text ++ ['.']) = true ↔ IsNumber (lastLabel text) := by
    rw [endsInNumber_iff, parts_concat_dot]
  refine checksEnd_iff_of fun before rest status scheme => ?_
  obtain ⟨found, hscan, hfound⟩ := endsWithOctet_text before hne
  rw [isPossibleEndsWithIpv4_dot before rest status scheme, if_neg hlength, exists_ok_iff hscan,
    found_eq_iff hfound hends]

/-- One character and a dot are never sent to the parser of addresses. -/
theorem checksEnd_single (d : Char) : ChecksEnd out ([d] ++ ['.']) ↔ ¬isDigit d = true := by
  have hends : endsInNumber ([d] ++ ['.']) = true ↔ isDigit d = true := by
    rw [endsInNumber_iff, parts_concat_dot]
    by_cases hd : d = '.'
    · subst hd
      exact iff_of_false not_isNumber_nil (by decide)
    · have hdot : '.' ∉ [d] := fun hmem => hd (List.mem_singleton.mp hmem).symm
      rw [lastLabel_of_not_mem hdot, IsNumber]
      simp
  refine checksEnd_iff_of fun before rest status scheme => ?_
  rw [isPossibleEndsWithIpv4_dot before rest status scheme, if_pos List.length_singleton,
    exists_ok_iff rfl,
    ← hends, Bool.not_eq_true, eq_comm]

theorem not_checksEnd_lone : ¬ChecksEnd out ['.'] := by
  intro h
  obtain ⟨ctx', heq⟩ := h [] [] .start .notSpecial
  cases heq

theorem ne_concat_dot {digits text : List Char} (hc : c ≠ '.')
    (hdigits : ∀ d ∈ digits, isDigit d = true) : c :: digits ≠ text ++ ['.'] := by
  intro heq
  exact not_mem_of_digits hc hdigits (by rw [heq]; simp)

theorem misreadEnd_plain (hc : c ≠ '.') :
    MisreadEnd (text ++ [c]) ↔ Misjudged (text ++ [c]) := by
  have hno (front : List Char) : text ++ [c] ≠ front ++ ['.'] := fun heq =>
    hc (List.singleton_inj.mp (List.append_inj' heq rfl).2)
  constructor
  · rintro (heq | ⟨d, -, heq⟩ | ⟨front, -, heq⟩ | ⟨d, digits, hdigit, hd, hdigits, heq | ⟨-, heq⟩⟩)
    · exact absurd heq (hno [])
    · exact absurd heq (hno [d])
    · exact absurd (heq.trans (List.append_assoc front ['.'] ['.']).symm) (hno _)
    · exact .inr ⟨d, digits, heq, hd, hdigit, hdigits⟩
    · exact absurd heq (hno _)
  · rintro (⟨front, heq⟩ | ⟨d, digits, heq, hd, hdigit, hdigits⟩)
    · exact absurd heq (hno front)
    · exact .inr (.inr (.inr ⟨d, digits, hdigit, hd, hdigits, .inl heq⟩))

theorem misreadEnd_single (d : Char) : MisreadEnd ([d] ++ ['.']) ↔ isDigit d = true := by
  constructor
  · rintro (heq | ⟨e, he, heq⟩ | ⟨front, hfront, heq⟩ |
      ⟨e, digits, -, he, hdigits, heq | ⟨hdigit, heq⟩⟩)
    · cases heq
    · rw [(List.cons.inj heq).1]
      exact he
    · obtain ⟨e, front, rfl⟩ := List.exists_cons_of_ne_nil hfront
      have hcount := congrArg List.length heq
      simp at hcount
    · exact absurd heq.symm (ne_concat_dot he hdigits)
    · rw [List.append_cancel_right_eq, List.cons.injEq] at heq
      exact absurd heq.2.symm hdigit
  · intro hd
    exact .inr (.inl ⟨d, hd, rfl⟩)

theorem misreadEnd_dot (hne : text ≠ []) (hlength : text.length ≠ 1) :
    MisreadEnd (text ++ ['.']) ↔ Misjudged text := by
  have hlong : 1 < text.length := by
    have hpos := List.length_pos_iff.mpr hne
    omega
  constructor
  · rintro (heq | ⟨e, he, heq⟩ | ⟨front, hfront, heq⟩ |
      ⟨e, digits, hdigit, he, hdigits, heq | ⟨-, heq⟩⟩)
    · exact absurd (List.append_left_eq_self.mp heq) hne
    · have hcount := congrArg List.length heq
      rw [List.length_append] at hcount
      exact absurd (Nat.succ.inj hcount) hlength
    · rw [show front ++ ['.', '.'] = (front ++ ['.']) ++ ['.'] by simp,
        List.append_cancel_right_eq] at heq
      exact .inl ⟨front, heq⟩
    · exact absurd heq.symm (ne_concat_dot he hdigits)
    · rw [List.append_cancel_right_eq] at heq
      exact .inr ⟨e, digits, heq, he, hdigit, hdigits⟩
  · rintro (⟨front, rfl⟩ | ⟨e, digits, rfl, he, hdigit, hdigits⟩)
    · refine .inr (.inr (.inl ⟨front, ?_, by simp⟩))
      rintro rfl
      exact hlength rfl
    · refine .inr (.inr (.inr ⟨e, digits, hdigit, he, hdigits, .inr ⟨?_, rfl⟩⟩))
      rintro rfl
      exact hlength rfl

/-- The check agrees with the standard exactly for the hosts that are not misread. -/
theorem isPossibleEndsWithIpv4_iff (out : σ) (hhost : host ≠ []) :
    ChecksEnd out host ↔ ¬MisreadEnd host := by
  obtain ⟨text, c, rfl⟩ := (List.eq_nil_or_concat' host).resolve_left hhost
  by_cases hc : c = '.'
  · subst hc
    match text with
    | [] => exact iff_of_false not_checksEnd_lone (not_not_intro (.inl rfl))
    | [d] => rw [checksEnd_single, misreadEnd_single]
    | d :: e :: text =>
        have hne : d :: e :: text ≠ [] := List.cons_ne_nil _ _
        have hlength : (d :: e :: text).length ≠ 1 := by simp
        rw [checksEnd_dot hne hlength, misreadEnd_dot hne hlength]
  · rw [checksEnd_plain hc, misreadEnd_plain hc]

theorem isPossibleEndsWithIpv4_two_labels :
    ChecksEnd (fun _ => [] : Strings) (['a', '.'] ++ ['b']) := by
  refine (isPossibleEndsWithIpv4_iff _ (by decide)).mpr ?_
  rw [misreadEnd_plain (by decide)]
  rintro (⟨front, heq⟩ | ⟨c, digits, heq, -, -, hdigits⟩)
  · have hlast := congrArg List.getLast? heq
    rw [List.getLast?_concat, List.getLast?_concat] at hlast
    cases hlast
  · rw [← (List.cons.inj heq).2] at hdigits
    exact absurd (hdigits '.' (by decide)) (by decide)

/-- A host of one letter is sent to the parser of addresses. -/
theorem not_checksEnd_letter : ¬ChecksEnd (fun _ => [] : Strings) ['h'] := by
  intro h
  obtain ⟨ctx', heq⟩ := h [] [] .start .notSpecial
  cases heq

end Check

end Webpp.Uri
