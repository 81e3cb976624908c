import Webpp.Uri.HostIpv4

/-!
# When an IPv4 host is parsed as it should be

`parse_host_ipv4` under the standard options and the parser that URLs are specified by differ
in three ways. The digits 8 and 9 are read in octal numbers. A lone dot is an address. And
the parts are counted only when the last one is stored: a fifth part of the value 0 is
accepted, and a fifth part that another one follows is written behind the four octets.
-/

namespace Webpp.Uri

open Loop Webpp.Text Ipv4

variable {σ : Type} {number : List Char → Option ℕ} {host : List Char}
  {x : Run (Option (List ℕ) × Ctx σ)} {more : List (List Char)} {numbers : List ℕ} {room : ℕ}

/-! ## Parts -/

/-- A part that is stored as an octet. -/
def Fits (number : List Char → Option ℕ) (part : List Char) : Prop :=
  ∃ n ≤ 255, number part = some n

/-- More octets than there is room for have another part behind them. -/
def Overflows (number : List Char → Option ℕ) (room : ℕ) (parts : List (List Char)) : Prop :=
  ∃ octets next more, parts = octets ++ next :: more ∧ octets.length = room + 1 ∧
    (∀ part ∈ octets, Fits number part) ∧ next ≠ []

/-- All octets are there, and a part of the value 0 is behind them. -/
def FifthZero (number : List Char → Option ℕ) (parts : List (List Char)) : Prop :=
  ∃ octets last, parts = octets ++ [last] ∧ octets.length = 4 ∧
    (∀ part ∈ octets, Fits number part) ∧ number last = some 0

/-- What all numbers of a host are made into. -/
def finishAll (o : Options) (stored numbers : List ℕ) : Option (List ℕ) :=
  if ∀ n ∈ numbers.dropLast, n ≤ 255 then
    finishOctets o (stored ++ numbers.dropLast) (numbers.getLastD 0)
  else none

section Parts

variable {o : Options} {part next : List Char} {more : List (List Char)} {stored : List ℕ}

theorem octetNumber_nil (o : Options) : octetNumber o [] = none := rfl

theorem Overflows.cons (hpart : Fits number part) :
    Overflows number (room + 1) (part :: next :: more) ↔ Overflows number room (next :: more) := by
  constructor
  · rintro ⟨octets, behind, others, hparts, hlength, hfits, hbehind⟩
    cases octets with
    | nil => cases hlength
    | cons octet octets =>
        rw [List.cons_append, List.cons.injEq] at hparts
        exact ⟨octets, behind, others, hparts.2, Nat.succ.inj hlength,
          fun p hp => hfits p (List.mem_cons_of_mem octet hp), hbehind⟩
  · rintro ⟨octets, behind, others, hparts, hlength, hfits, hbehind⟩
    refine ⟨part :: octets, behind, others, ?_, congrArg Nat.succ hlength, ?_, hbehind⟩
    · rw [hparts, List.cons_append]
    · intro p hp
      rcases List.mem_cons.mp hp with rfl | hp
      · exact hpart
      · exact hfits p hp

/-- The first part of too many is an octet, and the next one is not empty. -/
theorem Overflows.head (hnil : number [] = none)
    (h : Overflows number room (part :: next :: more)) : Fits number part ∧ next ≠ [] := by
  obtain ⟨octets, behind, others, hparts, hlength, hfits, hbehind⟩ := h
  match octets with
  | [] => cases hlength
  | [octet] =>
      rw [List.cons_append, List.cons.injEq, List.nil_append, List.cons.injEq] at hparts
      rw [hparts.1, hparts.2.1]
      exact ⟨hfits octet List.mem_cons_self, hbehind⟩
  | octet :: octet' :: octets =>
      rw [List.cons_append, List.cons.injEq, List.cons_append, List.cons.injEq] at hparts
      rw [hparts.1, hparts.2.1]
      refine ⟨hfits octet List.mem_cons_self, ?_⟩
      rintro rfl
      obtain ⟨n, _, hn⟩ := hfits [] (List.mem_cons_of_mem _ List.mem_cons_self)
      rw [hnil] at hn
      cases hn

theorem not_overflows_singleton :
    ¬Overflows number room [part] := by
  rintro ⟨octets, behind, others, hparts, hlength, -, -⟩
  have hcount := congrArg List.length hparts
  rw [List.length_append, hlength, List.length_cons, List.length_cons, List.length_nil] at hcount
  omega

theorem mapM_cons_of_none (h : number part = none)
    (more : List (List Char)) : (part :: more).mapM number = none := by
  rw [List.mapM_cons, h]
  rfl

theorem mapM_cons_of_some {n : ℕ} (h : number part = some n) (more : List (List Char)) :
    (part :: more).mapM number = (more.mapM number).map (n :: ·) := by
  rw [List.mapM_cons, h]
  cases more.mapM number with
  | none => rfl
  | some numbers => rfl

theorem length_of_mapM {parts : List (List Char)}
    (h : parts.mapM number = some numbers) : numbers.length = parts.length := by
  induction parts generalizing numbers with
  | nil =>
      rw [List.mapM_nil] at h
      cases h
      rfl
  | cons part more ih =>
      cases hn : number part with
      | none =>
          rw [mapM_cons_of_none hn] at h
          cases h
      | some n =>
          rw [mapM_cons_of_some hn, Option.map_eq_some_iff] at h
          obtain ⟨numbers', hmore, rfl⟩ := h
          exact congrArg Nat.succ (ih hmore)

theorem finishAll_cons {n : ℕ} (h : numbers ≠ []) :
    finishAll o stored (n :: numbers) =
      if n ≤ 255 then finishAll o (stored ++ [n]) numbers else none := by
  have hlast : (n :: numbers).getLastD 0 = numbers.getLastD 0 := by
    rw [List.getLastD_eq_getLast?, List.getLastD_eq_getLast?,
      List.getLast?_cons_of_ne_nil h]
  have hall : (∀ m ∈ (n :: numbers).dropLast, m ≤ 255) ↔
      n ≤ 255 ∧ ∀ m ∈ numbers.dropLast, m ≤ 255 := by
    rw [List.dropLast_cons_of_ne_nil h, List.forall_mem_cons]
  by_cases hn : n ≤ 255
  · rw [if_pos hn, finishAll, finishAll, hlast, List.dropLast_cons_of_ne_nil h,
      List.append_assoc, List.singleton_append]
    simp only [List.forall_mem_cons, hn, true_and]
  · rw [if_neg hn, finishAll, if_neg fun hoctets => hn (hall.mp hoctets).1]

theorem bind_finishAll_cons {n : ℕ} {parts : List (List Char)} (hparts : parts ≠ []) :
    ((parts.mapM number).map (n :: ·)).bind (finishAll o stored) =
      if n ≤ 255 then (parts.mapM number).bind (finishAll o (stored ++ [n])) else none := by
  cases hnumbers : parts.mapM number with
  | none =>
      split
      · rfl
      · rfl
  | some numbers =>
      refine finishAll_cons fun hnil => hparts ?_
      have hlength := length_of_mapM hnumbers
      rw [hnil] at hlength
      exact List.length_eq_zero_iff.mp hlength.symm

theorem readParts_of_overflows (hstored : stored.length ≤ 4) {parts : List (List Char)}
    (h : Overflows (octetNumber o) (4 - stored.length) parts) :
    readParts o stored parts = .error .writePastOctets := by
  induction parts generalizing stored with
  | nil =>
      obtain ⟨octets, behind, others, hparts, -, -, -⟩ := h
      exact absurd hparts.symm (by simp)
  | cons part more ih =>
      cases more with
      | nil => exact absurd h not_overflows_singleton
      | cons next more =>
          obtain ⟨hfits, hnext⟩ := h.head (octetNumber_nil o)
          obtain ⟨n, hn, hnumber⟩ := hfits
          have hgo : ¬(next = [] ∨ n > 255) := by
            rintro (hnil | hlarge)
            · exact hnext hnil
            · exact absurd hn (Nat.not_le.mpr hlarge)
          rw [readParts_of_some hnumber, if_neg hgo]
          by_cases hfull : stored.length = 4
          · rw [if_pos hfull]
          · have hroom : 4 - stored.length = (4 - (stored ++ [n]).length) + 1 := by
              rw [List.length_append, List.length_singleton]
              omega
            rw [hroom, Overflows.cons ⟨n, hn, hnumber⟩] at h
            rw [if_neg hfull]
            refine ih ?_ h
            rw [List.length_append, List.length_singleton]
            omega

theorem readParts_of_not_overflows (hstored : stored.length ≤ 4) {parts : List (List Char)}
    (hparts : parts ≠ []) (h : ¬Overflows (octetNumber o) (4 - stored.length) parts) :
    readParts o stored parts =
      .ok ((parts.mapM (octetNumber o)).bind (finishAll o stored)) := by
  induction parts generalizing stored with
  | nil => exact absurd rfl hparts
  | cons part more ih =>
      cases hnumber : octetNumber o part with
      | none =>
          rw [mapM_cons_of_none hnumber]
          cases more with
          | nil =>
              rw [readParts, hnumber]
              rfl
          | cons next more => exact readParts_of_none hnumber stored next more
      | some n =>
          rw [mapM_cons_of_some hnumber]
          cases more with
          | nil =>
              rw [readParts, hnumber]
              simp [finishAll]
              rfl
          | cons next more =>
              rw [readParts_of_some hnumber, bind_finishAll_cons (List.cons_ne_nil next more)]
              by_cases hn : n ≤ 255
              · rw [if_pos hn]
                by_cases hnext : next = []
                · rw [if_pos (.inl hnext), hnext, mapM_cons_of_none (octetNumber_nil o)]
                  rfl
                · rw [if_neg fun h => h.elim hnext (Nat.not_lt.mpr hn)]
                  have hfull : stored.length ≠ 4 := by
                    intro hlength
                    refine h ⟨[part], next, more, rfl, ?_, ?_, hnext⟩
                    · rw [hlength]
                      rfl
                    · intro p hp
                      rw [List.mem_singleton.mp hp]
                      exact ⟨n, hn, hnumber⟩
                  have hroom : 4 - stored.length = (4 - (stored ++ [n]).length) + 1 := by
                    rw [List.length_append, List.length_singleton]
                    omega
                  rw [hroom, Overflows.cons ⟨n, hn, hnumber⟩] at h
                  rw [if_neg hfull]
                  refine ih ?_ (List.cons_ne_nil next more) h
                  rw [List.length_append, List.length_singleton]
                  omega
              · rw [if_neg hn, if_pos (.inr (Nat.lt_of_not_le hn))]

theorem readParts_start (o : Options) (host : List Char) :
    Overflows (octetNumber o) 4 (parts host) ∧
        readParts o [] (parts host) = .error .writePastOctets ∨
      ¬Overflows (octetNumber o) 4 (parts host) ∧ readParts o [] (parts host) =
        .ok (((parts host).mapM (octetNumber o)).bind (finishAll o [])) := by
  have hstart : ([] : List ℕ).length ≤ 4 := Nat.zero_le 4
  by_cases hover : Overflows (octetNumber o) 4 (parts host)
  · exact .inl ⟨hover, readParts_of_overflows hstart hover⟩
  · exact .inr ⟨hover, readParts_of_not_overflows hstart (parts_ne_nil host) hover⟩

end Parts

/-! ## The numbers of the standard options -/

/-- The digits of each base, with 8 and 9 among the octal ones. -/
def looseDigit (base : ℕ) (c : Char) : Option ℕ :=
  if base = 16 then hexDigitSafe c else if isDigit c then some (digitValue c) else none

def looseNumber : List Char → Option ℕ := numberWith looseDigit

/-- An octal number with a digit 8 or 9. -/
def MisreadOctal (part : List Char) : Prop :=
  (numberBase part).1 = 8 ∧ ('8' ∈ (numberBase part).2 ∨ '9' ∈ (numberBase part).2)

section Numbers

variable {part : List Char} {c : Char} {base : ℕ}

theorem octetDigit_standard (base : ℕ) :
    octetDigit standardUriParsingOptions base = looseDigit base := by
  funext c
  by_cases hbase : base = 16
  · subst hbase
    rfl
  · have hno : ¬(standardUriParsingOptions.allowIpv4HexOctets && base == 16) = true := by
      rw [Bool.and_eq_true, beq_iff_eq]
      exact fun h => hbase h.2
    rw [octetDigit, if_neg hno, looseDigit, if_neg hbase]

theorem numberBase_of_ne (hc : c ≠ '0') (text : List Char) :
    numberBase (c :: text) = (10, c :: text) := by
  rw [numberBase.eq_def]
  split
  · rename_i heq
    exact absurd (List.cons.inj heq).1 hc
  · rfl

theorem octetNumber_standard : octetNumber standardUriParsingOptions = looseNumber := by
  funext part
  rw [octetNumber, looseNumber, numberWith, octetDigit_standard]
  rcases part with _ | ⟨c, _ | ⟨d, text⟩⟩
  · rfl
  · by_cases hc : c = '0'
    · rw [hc]
      rfl
    · rw [octetBase_of_ne hc, numberBase_of_ne hc]
  · by_cases hc : c = '0'
    · rw [hc, octetBase_zero_cons rfl]
      rfl
    · rw [octetBase_of_ne hc, numberBase_of_ne hc]

theorem hexDigitSafe_of_isDigit (h : isDigit c = true) : hexDigitSafe c = some (digitValue c) := by
  rw [isDigit, Bool.and_eq_true, decide_eq_true_iff, decide_eq_true_iff] at h
  rw [hexDigitSafe, if_pos h]
  rfl

theorem ten_le_of_hexDigitSafe {d : ℕ} (h : hexDigitSafe c = some d) (hc : isDigit c = false) :
    10 ≤ d := by
  rw [isDigit, Bool.and_eq_false_iff, decide_eq_false_iff_not, decide_eq_false_iff_not,
    ← not_and_or] at hc
  rw [hexDigitSafe, if_neg hc] at h
  split at h
  · cases h
    exact Nat.le_add_left ..
  · split at h
    · cases h
      exact Nat.le_add_left ..
    · cases h

theorem radixDigit_eq (hbase : base ≤ 10) (c : Char) :
    radixDigit base c =
      if isDigit c = true ∧ digitValue c < base then some (digitValue c) else none := by
  rw [radixDigit]
  cases hc : isDigit c with
  | true =>
      rw [hexDigitSafe_of_isDigit hc]
      by_cases hlt : digitValue c < base
      · simp [hlt]
      · simp [hlt, Nat.le_of_not_lt hlt]
  | false =>
      cases hd : hexDigitSafe c with
      | none => rfl
      | some d =>
          have hlarge := ten_le_of_hexDigitSafe hd hc
          simp
          omega

theorem digitValue_lt_eight (h8 : c ≠ '8') (h9 : c ≠ '9') (h : isDigit c = true) :
    digitValue c < 8 := by
  have hlt := digitValue_lt h
  by_contra hge
  have hcases : digitValue c = 8 ∨ digitValue c = 9 := by omega
  rcases hcases with hvalue | hvalue
  · have hc := digitChar_digitValue h
    rw [hvalue] at hc
    exact h8 hc.symm
  · have hc := digitChar_digitValue h
    rw [hvalue] at hc
    exact h9 hc.symm

theorem numberBase_cases (part : List Char) :
    (numberBase part).1 = 8 ∨ (numberBase part).1 = 10 ∨ (numberBase part).1 = 16 := by
  rw [numberBase.eq_def]
  split
  · split
    · exact .inr (.inr rfl)
    · exact .inl rfl
  · exact .inr (.inl rfl)

theorem radixDigit_eq_looseDigit (hbase : base ≤ 10)
    (h : isDigit c = true → digitValue c < base) : radixDigit base c = looseDigit base c := by
  have hne : base ≠ 16 := fun heq => absurd hbase (by rw [heq]; decide)
  rw [radixDigit_eq hbase, looseDigit, if_neg hne]
  cases hc : isDigit c with
  | true => rw [if_pos ⟨rfl, h hc⟩, if_pos rfl]
  | false => rw [if_neg fun hdigit => Bool.false_ne_true hdigit.1, if_neg Bool.false_ne_true]

/-- The numbers are the same without such digits. -/
theorem ipv4Number_of_not_misread (h : ¬MisreadOctal part) :
    ipv4Number part = looseNumber part := by
  rw [ipv4Number, looseNumber, numberWith, numberWith]
  split
  · rfl
  · refine numeral_congr fun c hc => ?_
    rcases numberBase_cases part with hbase | hbase | hbase
    · have h8 : c ≠ '8' := fun heq => h ⟨hbase, .inl (heq ▸ hc)⟩
      have h9 : c ≠ '9' := fun heq => h ⟨hbase, .inr (heq ▸ hc)⟩
      rw [hbase]
      exact radixDigit_eq_looseDigit (by decide) (digitValue_lt_eight h8 h9)
    · rw [hbase]
      exact radixDigit_eq_looseDigit le_rfl digitValue_lt
    · rw [hbase, radixDigit, looseDigit, if_pos rfl]
      cases hd : hexDigitSafe c with
      | none => rfl
      | some d => rw [Option.filter_some, decide_eq_true (hexDigitSafe_lt hd), if_pos rfl]

theorem ipv4Number_of_misread (h : MisreadOctal part) : ipv4Number part = none := by
  have hradix8 : radixDigit 8 '8' = none := rfl
  have hradix9 : radixDigit 8 '9' = none := rfl
  rw [ipv4Number, numberWith]
  split
  · rfl
  · rw [← Option.not_isSome_iff_eq_none, isSome_numeral_iff, h.1]
    intro hall
    rcases h.2 with h8 | h9
    · have hsome := hall '8' h8
      rw [hradix8] at hsome
      cases hsome
    · have hsome := hall '9' h9
      rw [hradix9] at hsome
      cases hsome

end Numbers

/-! ## The octets of an address -/

theorem lowBytes_octet {a n count : ℕ} (ha : a ≤ 255) (hn : n < 256 ^ count) :
    lowBytes (count + 1) (a * 256 ^ count + n) = a :: lowBytes count n := by
  have hfirst : (a * 256 ^ count + n) / 256 ^ count % 256 = a := by
    rw [Nat.mul_comm, Nat.mul_add_div (Nat.pow_pos (by decide)), Nat.div_eq_of_lt hn, Nat.add_zero]
    exact Nat.mod_eq_of_lt (Nat.lt_succ_of_le ha)
  rw [lowBytes_succ, hfirst, Nat.add_comm, lowBytes_add]

theorem octet_add_lt {a n count : ℕ} (ha : a ≤ 255) (hn : n < 256 ^ count) :
    a * 256 ^ count + n < 256 ^ (count + 1) := by
  calc a * 256 ^ count + n < a * 256 ^ count + 256 ^ count := Nat.add_lt_add_left hn _
    _ = (a + 1) * 256 ^ count := (Nat.succ_mul a _).symm
    _ ≤ 256 * 256 ^ count := Nat.mul_le_mul_right _ (Nat.succ_le_succ ha)
    _ = 256 ^ (count + 1) := (Nat.pow_succ').symm

theorem bytes_eq_lowBytes (n : ℕ) : bytes n = lowBytes 4 n := rfl

theorem octets_eq_bytes (hne : numbers ≠ []) (hlength : numbers.length ≤ 4)
    (hoctets : ∀ n ∈ numbers.dropLast, n ≤ 255)
    (hlast : numbers.getLastD 0 < 256 ^ (5 - numbers.length)) :
    numbers.dropLast ++ lowBytes (5 - numbers.length) (numbers.getLastD 0) =
      bytes (numbers.getLastD 0 +
        (numbers.dropLast.zipIdx.map fun n => n.1 * 256 ^ (3 - n.2)).sum) := by
  rw [bytes_eq_lowBytes, Nat.add_comm]
  rcases numbers with _ | ⟨a, _ | ⟨b, _ | ⟨c, _ | ⟨d, _ | ⟨e, more⟩⟩⟩⟩⟩
  · exact absurd rfl hne
  · rw [List.dropLast_singleton, List.zipIdx_nil, List.map_nil, List.sum_nil, Nat.zero_add]
    rfl
  · have ha : a ≤ 255 := hoctets a (List.mem_singleton_self a)
    have hb : [a, b].getLastD 0 < 256 ^ 3 := hlast
    have hsum : (([a, b].dropLast.zipIdx).map fun n => n.1 * 256 ^ (3 - n.2)).sum =
        a * 256 ^ 3 := by simp
    rw [hsum, lowBytes_octet ha hb]
    rfl
  · have ha : a ≤ 255 := hoctets a (by simp)
    have hb : b ≤ 255 := hoctets b (by simp)
    have hc : [a, b, c].getLastD 0 < 256 ^ 2 := hlast
    have hbc := octet_add_lt hb hc
    have hsum : (([a, b, c].dropLast.zipIdx).map fun n => n.1 * 256 ^ (3 - n.2)).sum =
        a * 256 ^ 3 + b * 256 ^ 2 := by simp
    rw [hsum, Nat.add_assoc, lowBytes_octet ha hbc, lowBytes_octet hb hc]
    rfl
  · have ha : a ≤ 255 := hoctets a (by simp)
    have hb : b ≤ 255 := hoctets b (by simp)
    have hc : c ≤ 255 := hoctets c (by simp)
    have hd : [a, b, c, d].getLastD 0 < 256 ^ 1 := hlast
    have hcd := octet_add_lt hc hd
    have hbcd := octet_add_lt hb hcd
    have hsum : (([a, b, c, d].dropLast.zipIdx).map fun n => n.1 * 256 ^ (3 - n.2)).sum =
        a * 256 ^ 3 + (b * 256 ^ 2 + c * 256 ^ 1) := by simp
    rw [hsum, Nat.add_assoc, Nat.add_assoc, lowBytes_octet ha hbcd, lowBytes_octet hb hcd,
      lowBytes_octet hc hd]
    rfl
  · simp only [List.length_cons] at hlength
    omega

theorem finishAll_standard (hne : numbers ≠ []) (hlength : numbers.length ≤ 4) :
    finishAll standardUriParsingOptions [] numbers = (address numbers).map bytes := by
  have hpos : 0 < numbers.length := List.length_pos_iff.mpr hne
  have hroom : 4 - numbers.dropLast.length = 5 - numbers.length := by
    rw [List.length_dropLast]
    omega
  have hoptions : (standardUriParsingOptions.allowMultipleTrailingEmptyIpv4Octets ||
    standardUriParsingOptions.allowTrailingEmptyIpv4Octet) = true := rfl
  rw [finishAll, finishOctets, if_pos hoptions, List.nil_append, hroom, address]
  by_cases hoctets : ∀ n ∈ numbers.dropLast, n ≤ 255
  · rw [if_pos hoctets]
    by_cases hlast : numbers.getLastD 0 < 256 ^ (5 - numbers.length)
    · rw [if_pos hlast, if_pos ⟨hoctets, hlast⟩, octets_eq_bytes hne hlength hoctets hlast]
      rfl
    · rw [if_neg hlast, if_neg fun h => hlast h.2]
      rfl
  · rw [if_neg hoctets, if_neg fun h => hoctets h.1]
    rfl

/-! ## Too many parts -/

section TooMany

variable {o : Options} {number : List Char → Option ℕ} {parts : List (List Char)}

theorem exists_of_mapM_append (h : (parts ++ more).mapM number = some numbers) :
    ∃ ns ms, parts.mapM number = some ns ∧ more.mapM number = some ms ∧ numbers = ns ++ ms := by
  rw [List.mapM_append] at h
  cases hns : parts.mapM number with
  | none =>
      rw [hns] at h
      cases h
  | some ns =>
      cases hms : more.mapM number with
      | none =>
          rw [hns, hms] at h
          cases h
      | some ms =>
          rw [hns, hms] at h
          exact ⟨ns, ms, rfl, rfl, (Option.some.inj h).symm⟩

theorem fits_iff_of_mapM {ns : List ℕ} (h : parts.mapM number = some ns) :
    (∀ part ∈ parts, Fits number part) ↔ ∀ n ∈ ns, n ≤ 255 := by
  induction parts generalizing ns with
  | nil =>
      cases h
      simp
  | cons part more ih =>
      cases hn : number part with
      | none =>
          rw [mapM_cons_of_none hn] at h
          cases h
      | some n =>
          rw [mapM_cons_of_some hn, Option.map_eq_some_iff] at h
          obtain ⟨ms, hms, rfl⟩ := h
          have hpart : Fits number part ↔ n ≤ 255 := by
            rw [Fits, hn]
            simp
          rw [List.forall_mem_cons, List.forall_mem_cons, ih hms, hpart]

theorem mapM_of_fits (h : ∀ part ∈ parts, Fits number part) :
    ∃ ns, parts.mapM number = some ns ∧ ∀ n ∈ ns, n ≤ 255 := by
  have hsome : ∃ ns, parts.mapM number = some ns := by
    induction parts with
    | nil => exact ⟨[], rfl⟩
    | cons part more ih =>
        obtain ⟨n, -, hn⟩ := h part List.mem_cons_self
        obtain ⟨ns, hns⟩ := ih fun p hp => h p (List.mem_cons_of_mem part hp)
        exact ⟨n :: ns, by rw [mapM_cons_of_some hn, hns]; rfl⟩
  obtain ⟨ns, hns⟩ := hsome
  exact ⟨ns, hns, (fits_iff_of_mapM hns).mp h⟩

theorem mapM_singleton (part : List Char) : [part].mapM number = (number part).map ([·]) := by
  cases hn : number part with
  | none => exact mapM_cons_of_none hn []
  | some n => exact mapM_cons_of_some hn []

theorem finishOctets_of_full (o : Options) {stored : List ℕ} (h : stored.length = 4) (n : ℕ) :
    finishOctets o stored n = if n = 0 then some stored else none := by
  rw [finishOctets, h]
  simp only [Nat.sub_self, Nat.pow_zero, Nat.lt_one_iff, true_and, lowBytes, List.range_zero,
    List.reverse_nil, List.map_nil, List.append_nil]
  split
  · rfl
  · rfl

theorem finishAll_append (ns : List ℕ) (n : ℕ) :
    finishAll o [] (ns ++ [n]) = if ∀ m ∈ ns, m ≤ 255 then finishOctets o ns n else none := by
  rw [finishAll, List.dropLast_concat, List.nil_append, List.getLastD_concat]

theorem five_eq_none_iff (hlength : parts.length = 5) :
    (parts.mapM number).bind (finishAll o []) = none ↔ ¬FifthZero number parts := by
  have hne : parts ≠ [] := by
    rintro rfl
    cases hlength
  have hsplit := List.dropLast_append_getLast hne
  have hcount : parts.dropLast.length = 4 := by rw [List.length_dropLast, hlength]
  generalize parts.dropLast = octets at hsplit hcount
  generalize parts.getLast hne = last at hsplit
  subst hsplit
  constructor
  · rintro hnone ⟨octets', last', hparts, hcount', hfits, hlast⟩
    obtain ⟨rfl, hlasts⟩ := List.append_inj' hparts rfl
    obtain rfl : last = last' := List.singleton_inj.mp hlasts
    obtain ⟨ns, hns, hoctets⟩ := mapM_of_fits hfits
    have hread : (octets ++ [last]).mapM number = some (ns ++ [0]) := by
      rw [List.mapM_append, hns, mapM_singleton, hlast]
      rfl
    have hfour : ns.length = 4 := by rw [length_of_mapM hns, hcount]
    rw [hread, Option.bind_some, finishAll_append, if_pos hoctets, finishOctets_of_full o hfour,
      if_pos rfl] at hnone
    cases hnone
  · intro hno
    cases hnumbers : (octets ++ [last]).mapM number with
    | none => rfl
    | some numbers =>
        obtain ⟨ns, ms, hns, hms, rfl⟩ := exists_of_mapM_append hnumbers
        rw [mapM_singleton, Option.map_eq_some_iff] at hms
        obtain ⟨n, hn, rfl⟩ := hms
        have hfour : ns.length = 4 := by rw [length_of_mapM hns, hcount]
        rw [Option.bind_some, finishAll_append]
        split
        · rename_i hoctets
          rw [finishOctets_of_full o hfour, if_neg]
          rintro rfl
          exact hno ⟨octets, last, rfl, hcount, (fits_iff_of_mapM hns).mpr hoctets, hn⟩
        · rfl

/-- More than five parts are refused unless an octet is written behind the others. -/
theorem six_eq_none (hnil : number [] = none) (hlength : 6 ≤ parts.length)
    (h : ¬Overflows number 4 parts) : (parts.mapM number).bind (finishAll o []) = none := by
  obtain ⟨octets, next, more, rfl, hcount⟩ : ∃ octets next more,
      parts = octets ++ next :: more ∧ octets.length = 5 := by
    refine ⟨parts.take 5, parts.get ⟨5, hlength⟩, parts.drop 6, ?_, ?_⟩
    · rw [List.get_eq_getElem, ← List.drop_eq_getElem_cons, List.take_append_drop]
    · rw [List.length_take, Nat.min_eq_left (Nat.le_of_succ_le hlength)]
  cases hnumbers : (octets ++ next :: more).mapM number with
  | none => rfl
  | some numbers =>
      obtain ⟨ns, ms, hns, hms, rfl⟩ := exists_of_mapM_append hnumbers
      have hnext : next ≠ [] := by
        rintro rfl
        rw [mapM_cons_of_none hnil] at hms
        cases hms
      have hmore : ms ≠ [] := by
        rintro rfl
        cases length_of_mapM hms
      rw [Option.bind_some, finishAll, if_neg]
      intro hoctets
      refine h ⟨octets, next, more, rfl, hcount, (fits_iff_of_mapM hns).mpr ?_, hnext⟩
      intro n hn
      refine hoctets n ?_
      rw [List.dropLast_append_of_ne_nil hmore]
      exact List.mem_append_left _ hn

end TooMany

/-! ## The standard options -/

section Contract

variable {o : Options} {ctx : Ctx σ}

theorem mapM_congr {number number' : List Char → Option ℕ} {parts : List (List Char)}
    (h : ∀ part ∈ parts, number part = number' part) : parts.mapM number = parts.mapM number' := by
  induction parts with
  | nil => rfl
  | cons part more ih =>
      rw [List.mapM_cons, List.mapM_cons, h part List.mem_cons_self,
        ih fun p hp => h p (List.mem_cons_of_mem part hp)]

theorem mapM_of_mem_none {parts : List (List Char)}
    {part : List Char} (hmem : part ∈ parts) (h : number part = none) :
    parts.mapM number = none := by
  obtain ⟨before, more, rfl⟩ := List.append_of_mem hmem
  rw [List.mapM_append, mapM_cons_of_none h]
  cases before.mapM number with
  | none => rfl
  | some ns => rfl

theorem ipv4Parser_eq_of_not_misread (h : ∀ part ∈ parts host, ¬MisreadOctal part) :
    ipv4Parser host = parserWith looseNumber host := by
  rw [ipv4Parser, parserWith, parserWith,
    mapM_congr fun part hpart => ipv4Number_of_not_misread (h part hpart)]

theorem ipv4Parser_of_misread {host part : List Char} (hmem : part ∈ parts host)
    (h : MisreadOctal part) : ipv4Parser host = none := by
  rw [ipv4Parser, parserWith, mapM_of_mem_none hmem (ipv4Number_of_misread h)]
  split
  · rfl
  · rfl

theorem parserWith_eq (hlength : (parts host).length ≤ 4) :
    ((parts host).mapM looseNumber).bind (finishAll standardUriParsingOptions []) =
      (parserWith looseNumber host).map bytes := by
  rw [parserWith, if_pos hlength]
  cases hnumbers : (parts host).mapM looseNumber with
  | none => rfl
  | some numbers =>
      have hcount := length_of_mapM hnumbers
      refine finishAll_standard ?_ (hcount ▸ hlength)
      rintro rfl
      exact parts_ne_nil host (List.length_eq_zero_iff.mp hcount.symm)

theorem exists_result_iff {y : Run (Option (List ℕ))}
    (h : Related (Settles ctx) x y) (r : Option (List ℕ)) :
    (∃ ctx', x = .ok (r, ctx')) ↔ y = .ok r := by
  cases h with
  | @ok a b hab =>
      constructor
      · rintro ⟨ctx', heq⟩
        rw [Except.ok.injEq] at heq
        rw [← hab.result, heq]
      · intro heq
        rw [Except.ok.injEq] at heq
        refine ⟨a.2, ?_⟩
        rw [← heq, ← hab.result]
  | error e =>
      constructor
      · rintro ⟨ctx', heq⟩
        cases heq
      · intro heq
        cases heq

theorem not_overflows_of_nil (hnil : number [] = none) :
    ¬Overflows number room ([] :: more) := by
  cases more with
  | nil => exact not_overflows_singleton
  | cons next more =>
      intro h
      obtain ⟨n, -, hn⟩ := (h.head hnil).1
      rw [hnil] at hn
      cases hn

theorem not_fifthZero_of_nil (hnil : number [] = none) : ¬FifthZero number ([] :: more) := by
  rintro ⟨octets, last, hparts, hcount, hfits, -⟩
  obtain ⟨part, octets, rfl⟩ := List.exists_cons_of_length_eq_add_one hcount
  rw [List.cons_append, List.cons.injEq] at hparts
  obtain ⟨n, -, hn⟩ := hfits part List.mem_cons_self
  rw [← hparts.1, hnil] at hn
  cases hn

theorem parserWith_of_nil (hnil : number [] = none) (h : parts host = [] :: more) :
    parserWith number host = none := by
  rw [parserWith, h, mapM_cons_of_none hnil]
  split
  · rfl
  · rfl

theorem ipv4Parser_of_length (h : 4 < (parts host).length) :
    ipv4Parser host = none := if_neg (Nat.not_le.mpr h)

theorem not_fifthZero_of_length {parts : List (List Char)}
    (h : parts.length ≠ 5) : ¬FifthZero number parts := by
  rintro ⟨octets, last, rfl, hcount, -⟩
  rw [List.length_append, hcount] at h
  exact h rfl

/-- What is read of at most four parts is the standard's address unless a digit 8 or 9 is
taken. -/
theorem four_eq_iff (hlength : (parts host).length ≤ 4) :
    ((parts host).mapM looseNumber).bind (finishAll standardUriParsingOptions []) =
        (ipv4Parser host).map bytes ↔
      ((∃ part ∈ parts host, MisreadOctal part) → parserWith looseNumber host = none) := by
  rw [parserWith_eq hlength]
  by_cases hmisread : ∃ part ∈ parts host, MisreadOctal part
  · obtain ⟨part, hmem, hpart⟩ := hmisread
    rw [ipv4Parser_of_misread hmem hpart, Option.map_none, Option.map_eq_none_iff]
    exact ⟨fun h _ => h, fun h => h ⟨part, hmem, hpart⟩⟩
  · have hread := ipv4Parser_eq_of_not_misread fun part hmem hpart => hmisread ⟨part, hmem, hpart⟩
    rw [hread]
    exact iff_of_true rfl fun h => absurd h hmisread

theorem readParts_standard_iff (host : List Char) :
    readParts standardUriParsingOptions [] (parts host) = .ok ((ipv4Parser host).map bytes) ↔
      ¬Overflows looseNumber 4 (parts host) ∧ ¬FifthZero looseNumber (parts host) ∧
        ((∃ part ∈ parts host, MisreadOctal part) → parserWith looseNumber host = none) := by
  rcases readParts_start standardUriParsingOptions host with ⟨hover, hread⟩ | ⟨hover, hread⟩
  · rw [octetNumber_standard] at hover
    rw [hread]
    refine iff_of_false ?_ fun h => h.1 hover
    rintro ⟨⟩
  · rw [octetNumber_standard] at hover hread
    rw [hread, Except.ok.injEq, and_iff_right hover]
    rcases Nat.lt_trichotomy (parts host).length 5 with hlength | hlength | hlength
    · rw [and_iff_right (not_fifthZero_of_length hlength.ne)]
      exact four_eq_iff (Nat.le_of_lt_succ hlength)
    · have hparser : parserWith looseNumber host = none := if_neg (by rw [hlength]; decide)
      rw [ipv4Parser_of_length (by rw [hlength]; decide), Option.map_none,
        five_eq_none_iff hlength]
      exact ⟨fun h => ⟨h, fun _ => hparser⟩, fun h => h.1⟩
    · have hparser : parserWith looseNumber host = none :=
        if_neg (Nat.not_le.mpr (Nat.lt_of_succ_lt hlength))
      rw [ipv4Parser_of_length (Nat.lt_of_succ_lt hlength),
        six_eq_none rfl hlength hover]
      exact iff_of_true rfl ⟨not_fifthZero_of_length hlength.ne', fun _ => hparser⟩

/-- An IPv4 host is parsed as the standard has it, exactly if it is no lone dot, no part too
many is stored or skipped, and no octal number of an address has a digit 8 or 9. -/
theorem parseHostIpv4_standard_iff (host : List Char) (ctx : Ctx σ) :
    (∃ ctx', parseHostIpv4 standardUriParsingOptions host ctx =
      .ok ((ipv4Parser host).map bytes, ctx')) ↔
      host ≠ ['.'] ∧ ¬Overflows looseNumber 4 (parts host) ∧
        ¬FifthZero looseNumber (parts host) ∧
        ((∃ part ∈ parts host, MisreadOctal part) → parserWith looseNumber host = none) := by
  have hrefused {more : List (List Char)} (hparts : parts host = [] :: more)
      (hhost : host ≠ ['.']) (hresult : Related (Settles ctx)
        (parseHostIpv4 standardUriParsingOptions host ctx) (.ok none)) :
      (∃ ctx', parseHostIpv4 standardUriParsingOptions host ctx =
        .ok ((ipv4Parser host).map bytes, ctx')) ↔
        host ≠ ['.'] ∧ ¬Overflows looseNumber 4 (parts host) ∧
          ¬FifthZero looseNumber (parts host) ∧
          ((∃ part ∈ parts host, MisreadOctal part) → parserWith looseNumber host = none) := by
    rw [exists_result_iff hresult, ipv4Parser, parserWith_of_nil rfl hparts]
    refine iff_of_true rfl ⟨hhost, ?_, ?_, fun _ => parserWith_of_nil rfl hparts⟩
    · rw [hparts]
      exact not_overflows_of_nil rfl
    · rw [hparts]
      exact not_fifthZero_of_nil rfl
  cases host with
  | nil => exact hrefused rfl (List.cons_ne_nil '.' []).symm (.ok (.of_setError ctx ctx rfl))
  | cons c rest =>
      by_cases hc : c = '.'
      · subst hc
        by_cases hrest : rest = []
        · subst hrest
          have hzero : parseHostIpv4 standardUriParsingOptions ['.'] ctx =
              .ok (some [0, 0, 0, 0], ctx.setWarning .ipv4TrailingEmptyOctet) := by
            rw [parseHostIpv4, if_neg (List.cons_ne_nil '.' []), if_pos List.head?_cons,
              hostIpv4End]
            simp [checkTrailingDots, fillOctets, standardUriParsingOptions]
            rfl
          have hnone : ipv4Parser ['.'] = none := rfl
          refine iff_of_false ?_ fun h => h.1 rfl
          rintro ⟨ctx', heq⟩
          rw [hzero, hnone, Except.ok.injEq, Prod.mk.injEq] at heq
          cases heq.1
        · have hparts : parts ('.' :: rest) = [] :: parts rest :=
            parts_append_dot List.not_mem_nil hrest
          have hhost : '.' :: rest ≠ ['.'] := by
            intro heq
            exact hrest (List.cons.inj heq).2
          exact hrefused hparts hhost (parseHostIpv4_dot rfl hrest ctx)
      · have hhost : c :: rest ≠ ['.'] := fun heq => hc (List.cons.inj heq).1
        have hhead : (c :: rest).head? ≠ some '.' := fun heq => hc (Option.some.inj heq)
        rw [exists_result_iff (parseHostIpv4_parts rfl (List.cons_ne_nil c rest) hhead ctx),
          readParts_standard_iff, and_iff_right hhost]

/-- The fifth part of a host is written behind its octets. -/
theorem not_parseHostIpv4_six_parts :
    ¬∃ ctx', parseHostIpv4 standardUriParsingOptions "1.2.3.4.5.6".toList
      (⟨[], [], fun _ => [], .start, .specialScheme⟩ : Ctx Strings) =
        .ok ((ipv4Parser "1.2.3.4.5.6".toList).map bytes, ctx') := by
  have hparts : Related (Settles _)
      (parseHostIpv4 standardUriParsingOptions "1.2.3.4.5.6".toList
        (⟨[], [], fun _ => [], .start, .specialScheme⟩ : Ctx Strings)) _ :=
    parseHostIpv4_parts rfl (by decide) (by decide) _
  have hread : readParts standardUriParsingOptions [] (parts "1.2.3.4.5.6".toList) =
    .error .writePastOctets := rfl
  rw [exists_result_iff hparts, hread]
  rintro ⟨⟩

end Contract

/-! ## The strict options -/

section Strict

variable {o : Options} {ctx : Ctx σ}

def decimalDigit (c : Char) : Option ℕ := if isDigit c then some (digitValue c) else none

def decimalNumber (part : List Char) : Option ℕ :=
  if part = [] then none else numeral decimalDigit 10 0 part

/-- What the strict options promise for a host: four decimal octets are returned without an
error, and any other number of parts is an error. -/
structure StrictIpv4 (ctx : Ctx σ) (host : List Char)
    (result : Run (Option (List ℕ) × Ctx σ)) : Prop where
  quad : ∀ q : List UInt8, q.length = 4 → host = Ip.dottedQuad q → ∃ ctx',
    result = .ok (some (q.map UInt8.toNat), ctx') ∧ ctx'.status.value = ctx.status.value
  count : (labels host).length ≠ 4 → ∃ ctx',
    result = .ok (none, ctx') ∧ ctx'.status.hasError = true

theorem octetNumber_strict : octetNumber strictUriParsingOptions = decimalNumber := by
  funext part
  have hdigit : octetDigit strictUriParsingOptions 10 = decimalDigit := rfl
  cases part with
  | nil => rfl
  | cons c text =>
      have hbase : octetBase strictUriParsingOptions (c :: text) = (10, c :: text) := by
        by_cases hc : c = '0'
        · rw [hc]
          exact octetBase_zero_of_false rfl text
        · exact octetBase_of_ne hc text
      rw [octetNumber, decimalNumber, hbase, hdigit]

theorem dropEmptyLast_length_le (parts : List (List Char)) :
    (dropEmptyLast parts).length ≤ parts.length := by
  fun_induction dropEmptyLast parts with
  | case1 part next more hempty => exact Nat.succ_le_succ (Nat.zero_le _)
  | case2 part next more hmore ih => exact Nat.succ_le_succ ih
  | case3 parts hshort => exact le_rfl

theorem four_eq_none {parts : List (List Char)} (hlength : parts.length ≤ 4) :
    (parts.mapM number).bind (finishAll strictUriParsingOptions []) = none := by
  cases hnumbers : parts.mapM number with
  | none => rfl
  | some numbers =>
      have hcount := length_of_mapM hnumbers
      rw [Option.bind_some, finishAll]
      split
      · have hno : ¬(strictUriParsingOptions.allowMultipleTrailingEmptyIpv4Octets ||
          strictUriParsingOptions.allowTrailingEmptyIpv4Octet) = true := Bool.false_ne_true
        rw [finishOctets, if_neg hno, if_neg]
        rintro ⟨hfour, -⟩
        rw [List.nil_append, List.length_dropLast] at hfour
        omega
      · rfl

theorem strictIpv4_of_none (h : Related (Settles ctx) x (.ok none)) :
    StrictIpv4 ctx host x ↔ ∀ q : List UInt8, q.length = 4 → host ≠ Ip.dottedQuad q := by
  obtain ⟨a, ha, rfl⟩ : ∃ a, Settles ctx a none ∧ x = .ok a := by
    cases h with
    | ok ha => exact ⟨_, ha, rfl⟩
  constructor
  · intro hstrict q hq hhost
    obtain ⟨ctx', heq, -⟩ := hstrict.quad q hq hhost
    rw [Except.ok.injEq] at heq
    have hresult := ha.result
    rw [heq] at hresult
    cases hresult
  · intro hno
    refine ⟨fun q hq hhost => absurd hhost (hno q hq), fun _ => ⟨a.2, ?_, ha.error rfl⟩⟩
    rw [← ha.result]

theorem not_strictIpv4
    {y : Run (Option (List ℕ))} (h : Related (Settles ctx) x y) (hy : y ≠ .ok none)
    (hlength : 4 < (parts host).length) : ¬StrictIpv4 ctx host x := by
  intro hstrict
  have hlabels : (parts host).length ≤ (labels host).length := dropEmptyLast_length_le _
  obtain ⟨ctx', heq, -⟩ := hstrict.count (Nat.lt_of_lt_of_le hlength hlabels).ne'
  exact hy ((exists_result_iff h none).mp ⟨ctx', heq⟩)

theorem lt_length_of_overflows {parts : List (List Char)}
    (h : Overflows number 4 parts) : 5 < parts.length := by
  obtain ⟨octets, next, more, rfl, hcount, -⟩ := h
  rw [List.length_append, hcount, List.length_cons]
  omega

theorem strictIpv4_parts
    (h : Related (Settles ctx) x (readParts strictUriParsingOptions [] (parts host))) :
    StrictIpv4 ctx host x ↔ (∀ q : List UInt8, q.length = 4 → host ≠ Ip.dottedQuad q) ∧
      ¬Overflows decimalNumber 4 (parts host) ∧ ¬FifthZero decimalNumber (parts host) := by
  rcases readParts_start strictUriParsingOptions host with ⟨hover, hread⟩ | ⟨hover, hread⟩
  · rw [octetNumber_strict] at hover
    rw [hread] at h
    have hlength := Nat.lt_of_succ_lt (lt_length_of_overflows hover)
    exact iff_of_false (not_strictIpv4 h (by rintro ⟨⟩) hlength) fun hno => hno.2.1 hover
  · rw [octetNumber_strict] at hover hread
    rw [hread] at h
    rw [and_iff_right hover]
    rcases Nat.lt_trichotomy (parts host).length 5 with hlength | hlength | hlength
    · rw [four_eq_none (Nat.le_of_lt_succ hlength)] at h
      rw [and_iff_left (not_fifthZero_of_length hlength.ne)]
      exact strictIpv4_of_none h
    · by_cases hzero : FifthZero decimalNumber (parts host)
      · refine iff_of_false (not_strictIpv4 h ?_ (by rw [hlength]; decide)) fun hno => hno.2 hzero
        rw [ne_eq, Except.ok.injEq, five_eq_none_iff hlength, not_not]
        exact hzero
      · rw [(five_eq_none_iff hlength).mpr hzero] at h
        rw [and_iff_left hzero]
        exact strictIpv4_of_none h
    · rw [six_eq_none rfl hlength hover] at h
      rw [and_iff_left (not_fifthZero_of_length hlength.ne')]
      exact strictIpv4_of_none h

/-- The promise of the strict options is kept exactly for the hosts that are no four octets,
and have no octet too many that is stored or skipped. -/
theorem parseHostIpv4_strict_iff (host : List Char) (ctx : Ctx σ) :
    StrictIpv4 ctx host (parseHostIpv4 strictUriParsingOptions host ctx) ↔
      (∀ q : List UInt8, q.length = 4 → host ≠ Ip.dottedQuad q) ∧
        ¬Overflows decimalNumber 4 (parts host) ∧ ¬FifthZero decimalNumber (parts host) := by
  have hrefused {more : List (List Char)} (hparts : parts host = [] :: more)
      (hresult : Related (Settles ctx) (parseHostIpv4 strictUriParsingOptions host ctx)
        (.ok none)) :
      StrictIpv4 ctx host (parseHostIpv4 strictUriParsingOptions host ctx) ↔
        (∀ q : List UInt8, q.length = 4 → host ≠ Ip.dottedQuad q) ∧
          ¬Overflows decimalNumber 4 (parts host) ∧ ¬FifthZero decimalNumber (parts host) := by
    rw [hparts, strictIpv4_of_none hresult, and_iff_left]
    exact ⟨not_overflows_of_nil rfl, not_fifthZero_of_nil rfl⟩
  cases host with
  | nil => exact hrefused rfl (.ok (.of_setError ctx ctx rfl))
  | cons c rest =>
      by_cases hc : c = '.'
      · subst hc
        by_cases hrest : rest = []
        · subst hrest
          exact hrefused rfl (.ok (.of_setError ctx ctx rfl))
        · exact hrefused (parts_append_dot List.not_mem_nil hrest) (parseHostIpv4_dot rfl hrest ctx)
      · have hhead : (c :: rest).head? ≠ some '.' := fun heq => hc (Option.some.inj heq)
        exact strictIpv4_parts (parseHostIpv4_parts rfl (List.cons_ne_nil c rest) hhead ctx)

/-- Four octets are refused. -/
theorem not_strictIpv4_quad :
    ¬StrictIpv4 (⟨[], [], fun _ => [], .start, .specialScheme⟩ : Ctx Strings) "1.2.3.4".toList
      (parseHostIpv4 strictUriParsingOptions "1.2.3.4".toList
        ⟨[], [], fun _ => [], .start, .specialScheme⟩) := by
  have hparts : Related (Settles _)
      (parseHostIpv4 strictUriParsingOptions "1.2.3.4".toList
        (⟨[], [], fun _ => [], .start, .specialScheme⟩ : Ctx Strings)) _ :=
    parseHostIpv4_parts rfl (by decide) (by decide) _
  have hread : readParts strictUriParsingOptions [] (parts "1.2.3.4".toList) = .ok none := rfl
  rw [hread] at hparts
  rw [strictIpv4_of_none hparts]
  intro hno
  exact hno [1, 2, 3, 4] rfl rfl

end Strict

end Webpp.Uri
