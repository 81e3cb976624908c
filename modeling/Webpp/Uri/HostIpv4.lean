import Mathlib.Tactic.Ring
import Webpp.Uri.Ipv4Parser
import Webpp.Uri.SafeHost

/-!
# The parser of IPv4 hosts, part by part

`parse_host_ipv4` goes through a host character by character. Here it is brought to a
recursion over the parts of the host, `readParts`, for every set of options that does not
allow several dots at the end.
-/

namespace Webpp.Uri

open Loop Webpp.Text Ipv4

variable {σ : Type}

/-! ## Reading one part -/

/-- The digits that are taken in a base. In an octal octet these are 8 and 9, too. -/
def octetDigit (o : Options) (base : ℕ) (c : Char) : Option ℕ :=
  if o.allowIpv4HexOctets && base == 16 then hexDigitSafe c
  else if isDigit c then some (digitValue c) else none

/-- What a part of a host is read as, up to the range of an octet. -/
def octetNumber (o : Options) (part : List Char) : Option ℕ :=
  if part = [] then none
  else numeral (octetDigit o (octetBase o part).1) (octetBase o part).1 0 (octetBase o part).2

/-- A part ends at the end of the host, or at a dot with `rest` behind it. -/
def EndsPart (tail rest : List Char) : Prop := tail = [] ∧ rest = [] ∨ tail = '.' :: rest

section Octets

variable {o : Options} {base n : ℕ} {part tail rest : List Char}

theorem octetDigit_dot (o : Options) (base : ℕ) : octetDigit o base '.' = none := by
  rw [octetDigit]
  split
  · rfl
  · rfl

theorem octetBase_of_ne {c : Char} (hc : c ≠ '0') (text : List Char) :
    octetBase o (c :: text) = (10, c :: text) := by
  rw [octetBase.eq_def]
  split
  · rename_i heq
    exact absurd (List.cons.inj heq).1 hc
  · rfl

/-- The base of an octet with a 0 in front that is not hexadecimal. -/
def zeroBase (o : Options) : ℕ := if o.allowIpv4OctalOctets then 8 else 10

theorem octetBase_zero_of_false (hhex : o.allowIpv4HexOctets = false) (text : List Char) :
    octetBase o ('0' :: text) = (zeroBase o, '0' :: text) := by
  show (if o.allowIpv4HexOctets = true then _ else _) = _
  rw [if_neg (by rw [hhex]; exact Bool.false_ne_true)]
  rfl

theorem octetBase_zero (hhex : o.allowIpv4HexOctets = true) :
    octetBase o ['0'] = (zeroBase o, []) := by
  show (if o.allowIpv4HexOctets = true then _ else _) = _
  rw [if_pos hhex]
  rfl

theorem octetBase_zero_cons (hhex : o.allowIpv4HexOctets = true) (c : Char) (text : List Char) :
    octetBase o ('0' :: c :: text) =
      if c = 'x' ∨ c = 'X' then (16, text) else (zeroBase o, c :: text) := by
  show (if o.allowIpv4HexOctets = true then _ else _) = _
  rw [if_pos hhex]
  rfl

theorem zeroBase_pos (o : Options) : 0 < zeroBase o := by
  rw [zeroBase]
  split
  · exact Nat.succ_pos _
  · exact Nat.succ_pos _

theorem octetBase_pos (o : Options) (hpart : part ≠ []) : 0 < (octetBase o part).1 := by
  obtain ⟨c, text, rfl⟩ := List.exists_cons_of_ne_nil hpart
  by_cases hc : c = '0'
  · subst hc
    cases hhex : o.allowIpv4HexOctets with
    | false =>
        rw [octetBase_zero_of_false hhex]
        exact zeroBase_pos o
    | true =>
        cases text with
        | nil =>
            rw [octetBase_zero hhex]
            exact zeroBase_pos o
        | cons d text =>
            rw [octetBase_zero_cons hhex]
            split
            · exact Nat.succ_pos _
            · exact zeroBase_pos o
  · rw [octetBase_of_ne hc]
    exact Nat.succ_pos _

theorem octetBase_append (hpart : part ≠ []) (htail : EndsPart tail rest) :
    octetBase o (part ++ tail) = ((octetBase o part).1, (octetBase o part).2 ++ tail) := by
  obtain ⟨c, text, rfl⟩ := List.exists_cons_of_ne_nil hpart
  by_cases hc : c = '0'
  · subst hc
    cases hhex : o.allowIpv4HexOctets with
    | false => rw [List.cons_append, octetBase_zero_of_false hhex, octetBase_zero_of_false hhex,
        List.cons_append]
    | true =>
        cases text with
        | nil =>
            rw [octetBase_zero hhex]
            rcases htail with ⟨rfl, rfl⟩ | rfl
            · exact octetBase_zero hhex
            · exact octetBase_zero_cons hhex '.' rest
        | cons d text =>
            rw [List.cons_append, List.cons_append, octetBase_zero_cons hhex,
              octetBase_zero_cons hhex]
            split
            · rfl
            · rfl
  · rw [List.cons_append, octetBase_of_ne hc, octetBase_of_ne hc, List.cons_append]

theorem octetBase_not_mem (h : '.' ∉ part) : '.' ∉ (octetBase o part).2 :=
  fun hmem => h ((octetBase_suffix o part).subset hmem)

/-- The digit of a character, as `readOctet` reads it. -/
theorem digit_eq (o : Options) (base : ℕ) (c : Char) :
    (if (o.allowIpv4HexOctets && base == 16) = true then (hexDigitSafe c).getD invalidNum
      else if isDigit c = true then digitValue c else invalidNum) =
      (octetDigit o base c).getD invalidNum := by
  rw [octetDigit]
  split
  · rfl
  · split
    · rfl
    · rfl

theorem readOctet_append (hbase : 0 < base) (hpart : '.' ∉ part) (htail : EndsPart tail rest)
    (hn : n < invalidNum) : readOctet o base n (part ++ tail) =
      ((numeral (octetDigit o base) base n part).filter (· < invalidNum)).map (·, rest) := by
  induction part generalizing n with
  | nil =>
      have hread : readOctet o base n tail = some (n, rest) := by
        rcases htail with ⟨rfl, rfl⟩ | rfl
        · rfl
        · have hlarge : n * base + invalidNum ≥ invalidNum := Nat.le_add_left ..
          rw [readOctet, digit_eq, octetDigit_dot]
          simp only [Option.getD_none, if_pos hlarge, if_true]
      rw [List.nil_append, hread, numeral]
      simp [hn]
  | cons c part ih =>
      have hc : c ≠ '.' := fun h => hpart (h ▸ List.mem_cons_self)
      have hrest : '.' ∉ part := fun h => hpart (List.mem_cons_of_mem c h)
      rw [List.cons_append, readOctet, digit_eq]
      simp only [if_neg hc]
      cases hd : octetDigit o base c with
      | none =>
          have hlarge : n * base + invalidNum ≥ invalidNum := Nat.le_add_left ..
          rw [numeral_cons_of_none hd, Option.getD_none, if_pos hlarge]
          rfl
      | some d =>
          rw [numeral_cons_of_some hd, Option.getD_some]
          split
          · rename_i hlarge
            cases hv : numeral (octetDigit o base) base (n * base + d) part with
            | none => rfl
            | some v =>
                have hle : invalidNum ≤ v := Nat.le_trans hlarge (le_of_numeral hbase hv)
                simpa using hle
          · rename_i hsmall
            exact ih hrest (Nat.lt_of_not_le hsmall)

theorem readOctet_part (hne : part ≠ []) (hpart : '.' ∉ part) (htail : EndsPart tail rest) :
    readOctet o (octetBase o (part ++ tail)).1 0 (octetBase o (part ++ tail)).2 =
      ((octetNumber o part).filter (· < invalidNum)).map (·, rest) := by
  have hzero : 0 < invalidNum := Nat.two_pow_pos 32
  rw [octetBase_append hne htail, octetNumber, if_neg hne]
  exact readOctet_append (octetBase_pos o hne) (octetBase_not_mem hpart) htail hzero

end Octets

/-! ## The last octet -/

/-- The lowest `count` bytes of a number, the highest first. -/
def lowBytes (count n : ℕ) : List ℕ := (List.range count).reverse.map fun i => n / 256 ^ i % 256

theorem lowBytes_succ (count n : ℕ) :
    lowBytes (count + 1) n = n / 256 ^ count % 256 :: lowBytes count n := by
  rw [lowBytes, List.range_succ, List.reverse_append]
  rfl

/-- The bytes below the highest one do not depend on it. -/
theorem lowBytes_add (count n k : ℕ) : lowBytes count (n + k * 256 ^ count) = lowBytes count n := by
  refine List.map_congr_left fun i hi => ?_
  have hlt : i < count := List.mem_range.mp (List.mem_reverse.mp hi)
  obtain ⟨j, rfl⟩ := Nat.exists_eq_add_of_lt hlt
  have hpow : k * 256 ^ (i + j + 1) = 256 ^ i * (256 * (k * 256 ^ j)) := by ring
  rw [hpow, Nat.add_mul_div_left _ _ (Nat.pow_pos (Nat.succ_pos 255)), Nat.add_mul_mod_self_left]

theorem fillOctets_eq (count octet : ℕ) :
    fillOctets count octet = (lowBytes count octet, octet - octet % 256 ^ count) := by
  induction count generalizing octet with
  | zero => simp [fillOctets, lowBytes, Nat.mod_one]
  | succ count ih =>
      have hpow : 2 ^ (count * 8) = 256 ^ count := by
        rw [Nat.mul_comm, Nat.pow_mul]
      have hsplit : octet - octet / 256 ^ count % 256 * 256 ^ count +
          octet / 256 ^ count % 256 * 256 ^ count = octet := by
        refine Nat.sub_add_cancel ?_
        exact (Nat.mul_le_mul_right _ (Nat.mod_le _ 256)).trans (Nat.div_mul_le_self ..)
      have hbytes : lowBytes count (octet - octet / 256 ^ count % 256 * 256 ^ count) =
          lowBytes count octet := by
        rw [← lowBytes_add, hsplit]
      have hmod : (octet - octet / 256 ^ count % 256 * 256 ^ count) % 256 ^ count =
          octet % 256 ^ count := by
        rw [← Nat.add_mul_mod_self_right, hsplit]
      rw [fillOctets, Nat.shiftRight_eq_div_pow, Nat.shiftLeft_eq, hpow, ih, hbytes, hmod,
        lowBytes_succ, Nat.sub_sub, Nat.mod_pow_succ, Nat.add_comm, Nat.mul_comm]

theorem fillOctets_snd_eq_zero_iff (count octet : ℕ) :
    (fillOctets count octet).2 = 0 ↔ octet < 256 ^ count := by
  rw [fillOctets_eq, Nat.sub_eq_zero_iff_le]
  constructor
  · intro hle
    exact hle.trans_lt (Nat.mod_lt _ (Nat.pow_pos (Nat.succ_pos 255)))
  · intro hlt
    exact (Nat.mod_eq_of_lt hlt).ge

/-- What is made of the octets that are stored and of the last one. -/
def finishOctets (o : Options) (stored : List ℕ) (octet : ℕ) : Option (List ℕ) :=
  if o.allowMultipleTrailingEmptyIpv4Octets || o.allowTrailingEmptyIpv4Octet then
    if octet < 256 ^ (4 - stored.length) then
      some (stored ++ lowBytes (4 - stored.length) octet)
    else none
  else if stored.length = 4 ∧ octet = 0 then some stored
  else none

theorem finishOctets_of_invalidNum_le (o : Options) {stored : List ℕ} {octet : ℕ}
    (h : invalidNum ≤ octet) : finishOctets o stored octet = none := by
  have hpow : 256 ^ (4 - stored.length) ≤ octet :=
    (Nat.pow_le_pow_right (Nat.succ_pos 255) (Nat.sub_le 4 _)).trans h
  have hpos : octet ≠ 0 := ((Nat.two_pow_pos 32).trans_le h).ne'
  rw [finishOctets]
  split
  · rw [if_neg (Nat.not_lt.mpr hpow)]
  · rw [if_neg fun hzero => hpos hzero.2]

/-! ## The whole host -/

/-- What the parser does with the parts of a host behind the octets `stored`. -/
def readParts (o : Options) : List ℕ → List (List Char) → Run (Option (List ℕ))
  | _, [] => pure none
  | stored, [part] => pure ((octetNumber o part).bind (finishOctets o stored))
  | stored, part :: next :: more =>
      match octetNumber o part with
      | none => pure none
      | some octet =>
          if next = [] ∨ octet > 255 then pure none
          else if stored.length = 4 then .error .writePastOctets
          else readParts o (stored ++ [octet]) (next :: more)

/-- The octets `r` are the result, and there is an error exactly if there are none. -/
structure Settles (ctx : Ctx σ) (x : Option (List ℕ) × Ctx σ) (r : Option (List ℕ)) : Prop where
  result : x.1 = r
  error : r = none → x.2.status.hasError = true
  valid : r ≠ none → x.2.status.value = ctx.status.value

section Parts

variable {o : Options} {ctx c : Ctx σ}

theorem Settles.of_setError (ctx c : Ctx σ) {value : UriStatus} (h : value.hasError = true) :
    Settles ctx (none, c.setError value) none :=
  ⟨rfl, fun _ => h, fun hne => absurd rfl hne⟩

theorem Settles.of_some (octets : List ℕ) (h : c.status.value = ctx.status.value) :
    Settles ctx (some octets, c) (some octets) :=
  ⟨rfl, fun hnone => absurd hnone (Option.some_ne_none _), fun _ => h⟩

theorem hostIpv4End_nil (stored : List ℕ) (octet : ℕ) (c' : Ctx σ)
    (h : c.status.value = ctx.status.value) :
    Settles ctx (hostIpv4End o ⟨[], stored, octet, c'⟩ c) (finishOctets o stored octet) := by
  have hdots : checkTrailingDots o [] c = (true, c) := rfl
  rw [hostIpv4End, hdots, finishOctets]
  simp only [if_true]
  split
  · split
    · rename_i hrest
      rw [if_neg fun hlt => hrest ((fillOctets_snd_eq_zero_iff _ _).mpr hlt)]
      exact .of_setError ctx c rfl
    · rename_i hrest
      rw [if_pos ((fillOctets_snd_eq_zero_iff _ _).mp (of_not_not hrest)), fillOctets_eq]
      exact .of_some _ h
  · split
    · rename_i hlength
      rw [if_neg fun hstored => hlength hstored.1]
      exact .of_setError ctx c rfl
    · rename_i hlength
      split
      · rename_i hoctet
        rw [if_neg fun hstored => hoctet hstored.2]
        exact .of_setError ctx c rfl
      · rename_i hoctet
        rw [if_pos ⟨of_not_not hlength, of_not_not hoctet⟩]
        exact .of_some _ h

theorem hostIpv4End_dots (hmany : o.allowMultipleTrailingEmptyIpv4Octets = false)
    {rest : List Char} (hrest : rest ≠ []) (stored : List ℕ) (octet : ℕ) (c' : Ctx σ) :
    Settles ctx (hostIpv4End o ⟨'.' :: rest, stored, octet, c'⟩ c) none := by
  have hdots : checkTrailingDots o ('.' :: rest) c = (false, c.setError .ipInvalidCharacter) := by
    have hempty : rest.isEmpty = false := List.isEmpty_eq_false_iff.mpr hrest
    simp [checkTrailingDots, hmany, hempty]
  rw [hostIpv4End, hdots]
  exact .of_setError ctx c rfl

theorem readParts_of_none {part : List Char} (h : octetNumber o part = none)
    (stored : List ℕ) (next : List Char) (more : List (List Char)) :
    readParts o stored (part :: next :: more) = .ok none := by
  rw [readParts, h]
  rfl

theorem readParts_of_some {part : List Char} {octet : ℕ} (h : octetNumber o part = some octet)
    (stored : List ℕ) (next : List Char) (more : List (List Char)) :
    readParts o stored (part :: next :: more) =
      if next = [] ∨ octet > 255 then .ok none
      else if stored.length = 4 then .error .writePastOctets
      else readParts o (stored ++ [octet]) (next :: more) := by
  rw [readParts, h]
  rfl

/-- What the loop of `parse_host_ipv4` goes on with. -/
def hostIpv4Ending (o : Options) (r : Option (HostIpv4State σ) × Ctx σ) :
    Run (Option (List ℕ) × Ctx σ) :=
  match r.1 with
  | none => pure (none, r.2)
  | some s => pure (hostIpv4End o s r.2)

section Rounds

variable {part tail rest : List Char} (hne : part ≠ []) (hpart : '.' ∉ part)
  (htail : EndsPart tail rest) (stored : List ℕ) (octet : ℕ)

include hne hpart htail

theorem hostIpv4Step_of_none (h : (octetNumber o part).filter (· < invalidNum) = none) :
    hostIpv4Step o ⟨part ++ tail, stored, octet, c⟩ =
      .ok (.done (none, c.setError .ipInvalidCharacter)) := by
  obtain ⟨d, text, hcons⟩ := List.exists_cons_of_ne_nil hne
  have hread : deref (part ++ tail) = .ok d := by
    rw [hcons]
    rfl
  rw [hostIpv4Step]
  simp only [hread, ok_bind, readOctet_part hne hpart htail, h]
  rfl

theorem hostIpv4Step_of_some {n : ℕ} (h : (octetNumber o part).filter (· < invalidNum) = some n) :
    ∃ c', c'.status.value = c.status.value ∧
      hostIpv4Step o ⟨part ++ tail, stored, octet, c⟩ =
        if rest = [] then .ok (.done (some ⟨[], stored, n, c'⟩, c'))
        else if rest.head? = some '.' then .ok (.done (some ⟨'.' :: rest, stored, n, c'⟩, c'))
        else if n > 255 then .ok (.done (none, c'.setError .ipInvalidOctetRange))
        else if stored.length = 4 then .error .writePastOctets
        else .ok (.next ⟨rest, stored ++ [n], n, c'⟩) := by
  obtain ⟨d, text, hcons⟩ := List.exists_cons_of_ne_nil hne
  have hread : deref (part ++ tail) = .ok d := by
    rw [hcons]
    rfl
  refine ⟨if ((o.allowIpv4HexOctets || o.allowIpv4OctalOctets) &&
      (octetBase o (part ++ tail)).1 != 10 && n != 0) = true then
        c.setWarning .ipv4NonDecimalOctet else c, ?_, ?_⟩
  · split
    · rfl
    · rfl
  · rw [hostIpv4Step]
    simp only [hread, ok_bind, readOctet_part hne hpart htail, h, Option.map_some]
    by_cases hrest : rest = []
    · rw [if_pos hrest, if_pos hrest, hrest]
      rfl
    · rw [if_neg hrest, if_neg hrest]
      split
      · rfl
      · split
        · rfl
        · split
          · rfl
          · rfl

end Rounds

theorem readParts_of_filter {part : List Char}
    (h : (octetNumber o part).filter (· < invalidNum) = none) (stored : List ℕ)
    (more : List (List Char)) : readParts o stored (part :: more) = .ok none := by
  cases hnumber : octetNumber o part with
  | none =>
      cases more with
      | nil =>
          rw [readParts, hnumber]
          rfl
      | cons next more => exact readParts_of_none hnumber stored next more
  | some octet =>
      have hlarge : invalidNum ≤ octet := by simpa [hnumber] using h
      cases more with
      | nil =>
          rw [readParts, hnumber, Option.bind_some, finishOctets_of_invalidNum_le o hlarge]
          rfl
      | cons next more =>
          have hrange : octet > 255 := Nat.lt_of_lt_of_le (by decide) hlarge
          rw [readParts_of_some hnumber, if_pos (.inr hrange)]

/-- A host without a dot in front is a part and what ends it. -/
theorem exists_part {src : List Char} (hsrc : src ≠ []) (hhead : src.head? ≠ some '.') :
    ∃ part tail rest, src = part ++ tail ∧ part ≠ [] ∧ '.' ∉ part ∧ EndsPart tail rest := by
  rcases exists_label src with hdot | ⟨part, rest, rfl, hpart⟩
  · exact ⟨src, [], [], (List.append_nil src).symm, hsrc, hdot, .inl ⟨rfl, rfl⟩⟩
  · refine ⟨part, '.' :: rest, rest, rfl, ?_, hpart, .inr rfl⟩
    rintro rfl
    exact hhead rfl

theorem EndsPart.parts_eq {part tail rest : List Char} (htail : EndsPart tail rest)
    (hpart : '.' ∉ part) :
    parts (part ++ tail) = if rest = [] then [part] else part :: parts rest := by
  rcases htail with ⟨rfl, rfl⟩ | rfl
  · rw [List.append_nil, parts_of_not_mem hpart, if_pos rfl]
  · by_cases hrest : rest = []
    · rw [hrest, parts_dot hpart, if_pos rfl]
    · rw [parts_append_dot hpart hrest, if_neg hrest]

theorem hostIpv4_loop (hmany : o.allowMultipleTrailingEmptyIpv4Octets = false) {n : ℕ}
    {src : List Char} (hn : src.length < n) (hsrc : src ≠ []) (hhead : src.head? ≠ some '.')
    (stored : List ℕ) (octet : ℕ) (hvalue : c.status.value = ctx.status.value) :
    Related (Settles ctx)
      (loop (hostIpv4Step o) .diverges n ⟨src, stored, octet, c⟩ >>= hostIpv4Ending o)
      (readParts o stored (parts src)) := by
  induction n generalizing src stored octet c with
  | zero => exact absurd hn (Nat.not_lt_zero _)
  | succ n ih =>
      obtain ⟨part, tail, rest, rfl, hne, hpart, htail⟩ := exists_part hsrc hhead
      have hparts := htail.parts_eq hpart
      cases hnumber : (octetNumber o part).filter (· < invalidNum) with
      | none =>
          have hresult : readParts o stored (parts (part ++ tail)) = .ok none := by
            rw [hparts]
            split
            · exact readParts_of_filter hnumber stored []
            · exact readParts_of_filter hnumber stored _
          rw [loop_of_done (hostIpv4Step_of_none hne hpart htail stored octet hnumber), hresult]
          exact .ok (.of_setError ctx c rfl)
      | some number =>
          obtain ⟨c', hvalue', hstep⟩ :=
            hostIpv4Step_of_some (c := c) hne hpart htail stored octet hnumber
          rw [hvalue] at hvalue'
          have hsome : octetNumber o part = some number := (Option.filter_eq_some_iff.mp hnumber).1
          by_cases hrest : rest = []
          · -- the last part
            rw [if_pos hrest] at hstep
            rw [loop_of_done hstep, hparts, if_pos hrest, readParts, hsome]
            exact .ok (hostIpv4End_nil stored number c' hvalue')
          · obtain ⟨next, more, hnext⟩ := List.exists_cons_of_ne_nil (parts_ne_nil rest)
            have hempty := parts_head_eq_nil_iff hrest hnext
            rw [if_neg hrest] at hstep hparts
            rw [hparts, hnext, readParts_of_some hsome]
            by_cases hdot : rest.head? = some '.'
            · -- an empty part is behind the dot
              rw [if_pos hdot] at hstep
              rw [loop_of_done hstep, if_pos (.inl (hempty.mpr hdot))]
              exact .ok (hostIpv4End_dots hmany hrest stored number c')
            · rw [if_neg hdot] at hstep
              by_cases hrange : number > 255
              · rw [if_pos hrange] at hstep
                rw [loop_of_done hstep, if_pos (.inr hrange)]
                exact .ok (.of_setError ctx c' rfl)
              · have hgo : ¬(next = [] ∨ number > 255) := by
                  rintro (hnil | hlarge)
                  · exact hdot (hempty.mp hnil)
                  · exact hrange hlarge
                rw [if_neg hrange] at hstep
                rw [if_neg hgo]
                by_cases hfull : stored.length = 4
                · rw [if_pos hfull] at hstep
                  rw [loop_of_error hstep, if_pos hfull]
                  exact .error _
                · rw [if_neg hfull] at hstep
                  rw [loop_of_next hstep, if_neg hfull, ← hnext]
                  have htail' : tail = '.' :: rest := htail.resolve_left fun h => hrest h.2
                  refine ih ?_ hrest hdot _ _ hvalue'
                  rw [htail', List.length_append, List.length_cons] at hn
                  omega

/-- What `parse_host_ipv4` does with a host. -/
theorem parseHostIpv4_parts (hmany : o.allowMultipleTrailingEmptyIpv4Octets = false)
    {host : List Char} (hhost : host ≠ []) (hhead : host.head? ≠ some '.') (ctx : Ctx σ) :
    Related (Settles ctx) (parseHostIpv4 o host ctx) (readParts o [] (parts host)) := by
  rw [parseHostIpv4, if_neg hhost, if_neg hhead]
  exact hostIpv4_loop hmany (Nat.lt_succ_self host.length) hhost hhead [] 0 rfl

theorem parseHostIpv4_dot (hmany : o.allowMultipleTrailingEmptyIpv4Octets = false)
    {rest : List Char} (hrest : rest ≠ []) (ctx : Ctx σ) :
    Related (Settles ctx) (parseHostIpv4 o ('.' :: rest) ctx) (.ok none) := by
  rw [parseHostIpv4, if_neg (List.cons_ne_nil '.' rest), if_pos List.head?_cons]
  exact .ok (hostIpv4End_dots hmany hrest [] 0 ctx)

end Parts

end Webpp.Uri
