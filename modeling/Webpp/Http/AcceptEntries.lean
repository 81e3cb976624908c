import Webpp.Foundation.Margins
import Webpp.Http.AcceptEncoding
import Webpp.Http.SetCookie

/-!
# Entries of `Accept-Encoding`

An entry is a coding, or a coding, a semicolon, a `q`, an equals sign and a value. RFC 7231 has
a token for the coding, no whitespace around the equals sign, and the values of a `qvalue`. The
parser has any coding without whitespace, the empty one too, allows for whitespace
everywhere, and does not have the value `0.`.
-/

namespace Webpp.Http

open Webpp.Text

variable {e coding q : List Char} {str : List Char} {c : Char}

/-! ## Values -/

/-- What is behind the first digit of a value. -/
def qvalueTail (digit : Char → Bool) : List Char → Bool
  | [] => true
  | c :: digits => c == '.' && decide (digits.length ≤ 3) && digits.all digit

/-- `qvalue` of RFC 7231. -/
def isQvalue : List Char → Bool
  | [] => false
  | c :: rest => (c == '0' && qvalueTail isDigit rest) || (c == '1' && qvalueTail (· == '0') rest)

def isZero (q : List Char) : Bool := q.all fun c => c == '0' || c == '.'

theorem isPrefixOf_replicate (a : Char) (n : ℕ) (l : List Char) :
    l.isPrefixOf (List.replicate n a) = (decide (l.length ≤ n) && l.all (· == a)) := by
  induction n generalizing l with
  | zero =>
      cases l with
      | nil => rfl
      | cons c l => rfl
  | succ n ih =>
      cases l with
      | nil => rfl
      | cons c l =>
          rw [List.replicate_succ, List.isPrefixOf, ih, List.length_cons, List.all_cons]
          simp only [Nat.add_le_add_iff_right]
          exact Bool.and_left_comm ..

theorem addDigits_iff (l : List Char) (d q : ℕ) :
    (∃ k, addDigits d q l = some k) ↔ l.all isDigit = true := by
  induction l generalizing d q with
  | nil => exact iff_of_true ⟨q, rfl⟩ rfl
  | cons c l ih =>
      rw [addDigits, List.all_cons, Bool.and_eq_true]
      split
      · rename_i hc
        rw [ih]
        exact (and_iff_right hc).symm
      · rename_i hc
        refine iff_of_false ?_ (fun h => hc h.1)
        rintro ⟨k, hk⟩
        cases hk

theorem mul_digit_eq_zero (hc : isDigit c = true) {d : ℕ} (hd : 0 < d) :
    d * (c.toNat - '0'.toNat) = 0 ↔ (c == '0') = true := by
  rw [Nat.mul_eq_zero, or_iff_right hd.ne', beq_iff_eq]
  have hle := ((isDigit_iff c).mp hc).1
  constructor
  · intro h
    refine Char.toNat_inj.mp (Nat.le_antisymm (Nat.sub_eq_zero_iff_le.mp h) hle)
  · rintro rfl
    rfl

theorem addDigits_eq_zero_iff {l : List Char} {m d q k : ℕ} (hlength : l.length ≤ m + 1)
    (hd : 10 ^ m ≤ d) (h : addDigits d q l = some k) :
    k = 0 ↔ q = 0 ∧ l.all (· == '0') = true := by
  induction l generalizing m d q with
  | nil =>
      rw [addDigits, Option.some_inj] at h
      rw [h, and_iff_left (show [].all (· == '0') = true from rfl)]
  | cons c l ih =>
      rw [addDigits] at h
      split at h
      · rename_i hc
        have hpos : 0 < d := Nat.lt_of_lt_of_le (Nat.pow_pos (by decide)) hd
        have hfirst : q + d * (c.toNat - '0'.toNat) = 0 ↔ q = 0 ∧ (c == '0') = true := by
          rw [Nat.add_eq_zero_iff, mul_digit_eq_zero hc hpos]
        rw [List.all_cons, Bool.and_eq_true, ← and_assoc, ← hfirst]
        cases m with
        | zero =>
            have hnil : l = [] := List.eq_nil_of_length_eq_zero (by
              rw [List.length_cons] at hlength
              omega)
            rw [hnil, addDigits, Option.some_inj] at h
            rw [hnil, h, and_iff_left (show [].all (· == '0') = true from rfl)]
        | succ m =>
            refine ih (Nat.le_of_succ_le_succ hlength) ?_ h
            rw [Nat.le_div_iff_mul_le (by decide), ← Nat.pow_succ]
            exact hd
      · cases h

/-- The values that the parser reads are those of RFC 7231 without `0.`. -/
theorem parseQvalue_iff (q : List Char) :
    (∃ k, parseQvalue q = some k) ↔ isQvalue q = true ∧ q ≠ ['0', '.'] := by
  cases q with
  | nil =>
      refine iff_of_false ?_ (fun h => Bool.false_ne_true h.1)
      rintro ⟨k, hk⟩
      cases hk
  | cons c rest =>
      rw [parseQvalue, isQvalue]
      by_cases hone : c = '1'
      · have hrest : ('1' :: rest).isPrefixOf ['1', '.', '0', '0', '0'] =
            qvalueTail (· == '0') rest := by
          cases rest with
          | nil => rfl
          | cons d digits =>
              rw [List.isPrefixOf, List.isPrefixOf, qvalueTail, Bool.and_assoc,
                ← isPrefixOf_replicate]
              rfl
        rw [if_pos (by rw [hone]; rfl), hone, hrest]
        cases qvalueTail (· == '0') rest with
        | true => exact iff_of_true ⟨1000, rfl⟩ ⟨by simp, by simp⟩
        | false =>
            refine iff_of_false ?_ (fun h => absurd h.1 (by simp))
            rintro ⟨k, hk⟩
            cases hk
      · rw [if_neg (by rw [List.head?_cons, Option.some_inj]; exact hone)]
        by_cases hzero : c = '0'
        · rw [if_neg (by rw [hzero]; simp), hzero]
          cases rest with
          | nil => exact iff_of_true ⟨0, rfl⟩ ⟨rfl, by decide⟩
          | cons d digits =>
              have htail : ('0' == '0' && qvalueTail isDigit (d :: digits) ||
                  '0' == '1' && qvalueTail (· == '0') (d :: digits)) =
                  qvalueTail isDigit (d :: digits) := Bool.or_false _
              rw [htail, qvalueTail, Bool.and_eq_true, Bool.and_eq_true, beq_iff_eq,
                decide_eq_true_eq]
              simp only [List.length_cons, List.getElem?_cons_succ, List.getElem?_cons_zero,
                List.drop_succ_cons, List.drop_zero]
              by_cases hlength : digits.length = 0 ∨ 3 < digits.length
              · rw [if_neg (by omega), if_pos (by omega)]
                refine iff_of_false ?_ ?_
                · rintro ⟨k, hk⟩
                  cases hk
                · rintro ⟨⟨⟨rfl, hle⟩, -⟩, hne⟩
                  have hnil := List.eq_nil_of_length_eq_zero (hlength.resolve_right (by omega))
                  rw [hnil] at hne
                  exact hne rfl
              · rw [if_neg (by omega), if_neg (by omega)]
                have hne : '0' :: d :: digits ≠ ['0', '.'] := by
                  intro h
                  rw [List.cons.injEq, List.cons.injEq] at h
                  rw [h.2.2] at hlength
                  exact hlength (.inl rfl)
                rw [and_iff_left hne]
                by_cases hd : d = '.'
                · rw [if_neg (by rw [hd]; simp), addDigits_iff]
                  exact (and_iff_right ⟨hd, by omega⟩).symm
                · rw [if_pos (by rw [ne_eq, Option.some_inj]; exact hd)]
                  refine iff_of_false ?_ (fun h => hd h.1.1)
                  rintro ⟨k, hk⟩
                  cases hk
        · rw [if_pos (by rw [List.head?_cons, ne_eq, Option.some_inj]; exact hzero),
            beq_false_of_ne hzero, beq_false_of_ne hone]
          refine iff_of_false ?_ (fun h => absurd h.1 (by simp))
          rintro ⟨k, hk⟩
          cases hk

theorem parseQvalue_eq_zero_iff {q : List Char} {k : ℕ} (h : parseQvalue q = some k) :
    k = 0 ↔ isZero q = true := by
  obtain ⟨hqvalue, -⟩ := (parseQvalue_iff q).mp ⟨k, h⟩
  cases q with
  | nil => exact absurd hqvalue Bool.false_ne_true
  | cons c rest =>
      rw [parseQvalue] at h
      by_cases hone : c = '1'
      · rw [if_pos (by rw [hone]; rfl)] at h
        split at h
        · rw [← Option.some_inj.mp h, hone]
          exact iff_of_false (by decide) (by simp [isZero])
        · cases h
      · rw [if_neg (by rw [List.head?_cons, Option.some_inj]; exact hone)] at h
        split at h
        · cases h
        · rename_i hhead
          have hc : c = '0' := by
            rw [not_not, List.head?_cons, Option.some_inj] at hhead
            exact hhead
          rw [isZero, List.all_cons, hc]
          cases rest with
          | nil => exact iff_of_true (Option.some_inj.mp h).symm rfl
          | cons d digits =>
              simp only [List.length_cons, List.getElem?_cons_succ, List.getElem?_cons_zero,
                List.drop_succ_cons, List.drop_zero] at h
              rw [if_neg (by omega)] at h
              split at h
              · cases h
              · rename_i hlength
                split at h
                · cases h
                · rename_i hd
                  have hdot : d = '.' := by
                    rw [not_not, Option.some_inj] at hd
                    exact hd
                  obtain hdigits := (addDigits_iff digits 100 0).mp ⟨k, h⟩
                  rw [addDigits_eq_zero_iff (m := 2) (by omega) (by decide) h,
                    and_iff_right rfl, List.all_cons, hdot]
                  have hall : digits.all (fun c => c == '0' || c == '.') =
                      digits.all (· == '0') := by
                    rw [Bool.eq_iff_iff, List.all_eq_true, List.all_eq_true]
                    refine forall₂_congr fun x hx => ?_
                    have hdigit := List.all_eq_true.mp hdigits x hx
                    rw [Bool.or_eq_true, or_iff_left]
                    intro hxdot
                    rw [eq_of_beq hxdot] at hdigit
                    exact absurd hdigit (by decide)
                  rw [hall]
                  simp

/-! ## Trimming -/

/-- The text neither begins nor ends with whitespace. -/
def Trimmed (str : List Char) : Prop :=
  (∀ c ∈ str.head?, isLws c = false) ∧ ∀ c ∈ str.getLast?, isLws c = false

theorem trimLws_append {before core behind : List Char} (hbefore : ∀ c ∈ before, isLws c = true)
    (hbehind : ∀ c ∈ behind, isLws c = true) (hcore : Trimmed core) :
    trimLws (before ++ (core ++ behind)) = core :=
  Margins.trim_of_padded ⟨hcore, before, behind, hbefore, hbehind, rfl⟩

theorem lws_nil : ∀ c ∈ [], isLws c = true := fun _ hc => absurd hc List.not_mem_nil

theorem exists_trimLws (str : List Char) :
    ∃ before behind, str = before ++ (trimLws str ++ behind) ∧
      (∀ c ∈ before, isLws c = true) ∧ (∀ c ∈ behind, isLws c = true) ∧
      Trimmed (trimLws str) := by
  obtain ⟨hcore, before, behind, hbefore, hbehind, hstr⟩ := Margins.padded_trim isLws str
  exact ⟨before, behind, hstr, hbefore, hbehind, hcore⟩

theorem eq_nil_of_head {pre : List Char} (rest : List Char) (hpre : ∀ c ∈ pre, isLws c = true)
    (hhead : ∀ c ∈ (pre ++ rest).head?, isLws c = false) : pre = [] := by
  cases pre with
  | nil => rfl
  | cons c pre =>
      have hc := hhead c rfl
      rw [hpre c List.mem_cons_self] at hc
      exact Bool.noConfusion hc

theorem eq_nil_of_last {post : List Char} (rest : List Char) (hpost : ∀ c ∈ post, isLws c = true)
    (hlast : ∀ c ∈ (rest ++ post).getLast?, isLws c = false) : post = [] := by
  have hpost' : ∀ c ∈ post.reverse, isLws c = true := fun c hc => hpost c (List.mem_reverse.mp hc)
  refine List.reverse_eq_nil_iff.mp (eq_nil_of_head rest.reverse hpost' ?_)
  rw [← List.reverse_append, List.head?_reverse]
  exact hlast

/-! ## Entries -/

/-- What the parts of an entry may be. -/
structure EntryRules where
  coding : List Char → Prop
  gap : List Char → Prop
  value : List Char → Prop

/-- A list element with its coding and its value. Around the semicolon there may be
whitespace. -/
inductive Entry (R : EntryRules) : List Char → List Char → List Char → Prop where
  | bare {coding : List Char} (h : R.coding coding) : Entry R coding coding ['1']
  | weighted {coding before behind left right q : List Char} {n : Char} (h : R.coding coding)
      (hbefore : ∀ c ∈ before, isLws c = true) (hbehind : ∀ c ∈ behind, isLws c = true)
      (hname : n = 'q' ∨ n = 'Q') (hleft : R.gap left) (hright : R.gap right) (hvalue : R.value q) :
      Entry R (coding ++ before ++ ';' :: (behind ++ n :: (left ++ '=' :: (right ++ q)))) coding q

/-- The grammar of RFC 7231; the characters of a token are those of the name of a cookie. -/
def rfc7231 : EntryRules where
  coding coding := coding ≠ [] ∧ ∀ c ∈ coding, validCookieName c = true
  gap gap := gap = []
  value q := isQvalue q = true

/-- What the parser takes apart as it should. -/
def loose : EntryRules where
  coding coding := ∀ c ∈ coding, isLws c = false ∧ c ≠ ';'
  gap gap := ∀ c ∈ gap, isLws c = true
  value q := isQvalue q = true

/-- What the parser can read. -/
def readable : EntryRules := { loose with value := fun q => isQvalue q = true ∧ q ≠ ['0', '.'] }

theorem Entry.loose_of_readable (h : Entry readable e coding q) :
    Entry loose e coding q ∧ q ≠ ['0', '.'] := by
  cases h with
  | bare h => exact ⟨.bare h, by decide⟩
  | weighted h hbefore hbehind hname hleft hright hvalue =>
      exact ⟨.weighted h hbefore hbehind hname hleft hright hvalue.1, hvalue.2⟩

theorem Entry.loose (h : Entry rfc7231 e coding q) :
    Entry loose e coding q := by
  have hcoding : ∀ coding, rfc7231.coding coding → Http.loose.coding coding := by
    intro coding hc c hmem
    have hsemi := not_semicolon_of_name (hc.2 c hmem)
    rw [semicolon, Bool.or_eq_false_iff] at hsemi
    exact ⟨hsemi.1, ne_of_beq_false hsemi.2⟩
  have hgap : ∀ gap, rfc7231.gap gap → Http.loose.gap gap := by
    intro gap hnil c hc
    rw [show gap = [] from hnil] at hc
    exact absurd hc List.not_mem_nil
  cases h with
  | bare h => exact .bare (hcoding _ h)
  | weighted h hbefore hbehind hname hleft hright hvalue =>
      exact .weighted (hcoding _ h) hbefore hbehind hname (hgap _ hleft) (hgap _ hright)
        hvalue

theorem splitAtFirst_append {left : List Char} (h : c ∉ left) (right : List Char) :
    splitAtFirst c (left ++ c :: right) = some (left, right) := by
  have hall : ∀ x ∈ left, decide (x ≠ c) = true := fun x hx =>
    decide_eq_true fun heq => h (heq ▸ hx)
  rw [splitAtFirst, if_pos (by simp), List.takeWhile_append_of_pos hall,
    List.dropWhile_append_of_pos hall, List.takeWhile_cons_of_neg (by simp),
    List.dropWhile_cons_of_neg (by simp), List.append_nil, List.tail_cons]

theorem exists_splitAtFirst {str left right : List Char}
    (h : splitAtFirst c str = some (left, right)) : str = left ++ c :: right ∧ c ∉ left := by
  rw [splitAtFirst] at h
  split at h
  · rename_i hc
    obtain ⟨pre, post, rfl, hpre⟩ := List.eq_append_cons_of_mem hc
    have hsplit := splitAtFirst_append hpre post
    rw [splitAtFirst, if_pos hc] at hsplit
    rw [hsplit, Option.some_inj, Prod.mk.injEq] at h
    rw [← h.1, ← h.2]
    exact ⟨rfl, hpre⟩
  · cases h

theorem trimmed_of_forall (h : ∀ c ∈ str, isLws c = false) : Trimmed str :=
  ⟨fun c hc => h c (List.mem_of_mem_head? hc), fun c hc => h c (List.mem_of_mem_getLast? hc)⟩

theorem isLws_of_isQvalue {q : List Char} (h : isQvalue q = true) : ∀ c ∈ q, isLws c = false := by
  have hdigit : ∀ c, isDigit c = true → isLws c = false := by
    intro c hc
    rw [isLws, Bool.or_eq_false_iff]
    refine ⟨beq_false_of_ne ?_, beq_false_of_ne ?_⟩
    · rintro rfl
      exact absurd hc (by decide)
    · rintro rfl
      exact absurd hc (by decide)
  have hzero : ∀ c, (c == '0') = true → isLws c = false := fun c hc => by rw [eq_of_beq hc]; rfl
  have htail : ∀ (digit : Char → Bool) (rest : List Char),
      (∀ c, digit c = true → isLws c = false) → qvalueTail digit rest = true →
      ∀ c ∈ rest, isLws c = false := by
    intro digit rest hlws hrest c hc
    cases rest with
    | nil => exact absurd hc List.not_mem_nil
    | cons d digits =>
        rw [qvalueTail, Bool.and_eq_true, Bool.and_eq_true] at hrest
        rcases List.mem_cons.mp hc with rfl | hc
        · rw [eq_of_beq hrest.1.1]
          rfl
        · exact hlws c (List.all_eq_true.mp hrest.2 c hc)
  intro c hc
  cases q with
  | nil => exact absurd hc List.not_mem_nil
  | cons d rest =>
      rw [isQvalue, Bool.or_eq_true, Bool.and_eq_true, Bool.and_eq_true] at h
      rcases h with ⟨hd, hrest⟩ | ⟨hd, hrest⟩
      · rcases List.mem_cons.mp hc with rfl | hc
        · rw [eq_of_beq hd]
          rfl
        · exact htail _ rest hdigit hrest c hc
      · rcases List.mem_cons.mp hc with rfl | hc
        · rw [eq_of_beq hd]
          rfl
        · exact htail _ rest hzero hrest c hc

theorem isQvalue_ne_nil {q : List Char} (h : isQvalue q = true) : q ≠ [] := by
  rintro rfl
  exact Bool.false_ne_true h

theorem eq_or_eq_of_toLowerCopy {c lower : Char} (upper : Char) (h : toLowerCopy c = lower)
    (hupper : lower.toNat = upper.toNat + 32) : c = upper ∨ c = lower := by
  rw [toLowerCopy] at h
  split at h
  · rename_i hrange
    left
    have hnat : c.toNat ≤ 90 := hrange.2
    have hvalid : (c.toNat + 32).isValidChar := .inl (by omega)
    have heq := congrArg Char.toNat h
    rw [Char.ofNat, dif_pos hvalid] at heq
    change c.toNat + 32 = lower.toNat at heq
    exact Char.toNat_inj.mp (by omega)
  · exact .inr h

theorem iequalsSl_q_iff {name : List Char} :
    iequalsSl name ['q'] = true ↔ name = ['q'] ∨ name = ['Q'] := by
  rw [iequalsSl, beq_iff_eq]
  constructor
  · intro h
    obtain ⟨c, rfl, hc⟩ := List.map_eq_singleton_iff.mp h
    rcases eq_or_eq_of_toLowerCopy 'Q' hc rfl with rfl | rfl
    · exact .inr rfl
    · exact .inl rfl
  · rintro (rfl | rfl)
    · rfl
    · rfl

/-- What the parser makes of a coding and a value. -/
def entryResult (coding q : List Char) : EntryResult :=
  match parseQvalue q with
  | none => .invalid
  | some quality => if quality = 0 then .skip else .allow ⟨toKnownAlgo coding, quality⟩

theorem not_any_isLws_iff :
    ¬ str.any isLws = true ↔ ∀ c ∈ str, isLws c = false := by
  rw [Bool.not_eq_true, List.any_eq_false]
  exact forall₂_congr fun c _ => (Bool.not_eq_true _).to_iff

theorem not_mem_gap {gap : List Char} (hc : isLws c = false) (hgap : loose.gap gap) :
    c ∉ gap := by
  intro hmem
  rw [hgap c hmem] at hc
  exact Bool.noConfusion hc

theorem parseParams_of_gaps {left right q : List Char} {n : Char} (hname : n = 'q' ∨ n = 'Q')
    (hleft : loose.gap left) (hright : loose.gap right) (hvalue : isQvalue q = true) :
    Trimmed (n :: (left ++ '=' :: (right ++ q))) ∧
      parseParams (n :: (left ++ '=' :: (right ++ q))) = parseQvalue q := by
  have hqlws := isLws_of_isQvalue hvalue
  have hn : isLws n = false ∧ n ≠ '=' ∧ iequalsSl [n] ['q'] = true := by
    rcases hname with rfl | rfl
    · exact ⟨rfl, by decide, rfl⟩
    · exact ⟨rfl, by decide, rfl⟩
  obtain ⟨hnlws, hnequals, hq⟩ := hn
  have hequals : splitAtFirst '=' (n :: (left ++ '=' :: (right ++ q))) =
      some (n :: left, right ++ q) := by
    rw [← List.cons_append]
    refine splitAtFirst_append (fun hmem => ?_) _
    rcases List.mem_cons.mp hmem with heq | hmem
    · exact hnequals heq.symm
    · exact not_mem_gap rfl hleft hmem
  have hsingle : Trimmed [n] :=
    trimmed_of_forall fun c hc => by rw [List.mem_singleton.mp hc]; exact hnlws
  have hleft' : trimLws (n :: left) = [n] := trimLws_append lws_nil hleft hsingle
  have hright' : trimLws (right ++ q) = q := by
    have htrim := trimLws_append hright lws_nil (trimmed_of_forall hqlws)
    rw [List.append_nil] at htrim
    exact htrim
  refine ⟨⟨fun c hc => ?_, fun c hc => hqlws c ?_⟩, ?_⟩
  · rw [List.head?_cons, Option.mem_some_iff] at hc
    rw [← hc]
    exact hnlws
  · have hassoc : n :: (left ++ '=' :: (right ++ q)) =
        (n :: (left ++ '=' :: right)) ++ q := by simp
    rw [hassoc, List.getLast?_append_of_ne_nil _ (isQvalue_ne_nil hvalue)] at hc
    exact List.mem_of_mem_getLast? hc
  · rw [parseParams, hequals, Option.bind_some, hleft', if_pos hq, hright']

theorem parseEntry_of_entry (h : Entry loose e coding q) :
    parseEntry e = entryResult coding q := by
  cases h with
  | bare h =>
      have hsemi : ';' ∉ e := fun hmem => (h ';' hmem).2 rfl
      have hlws := not_any_isLws_iff.mpr fun c hc => (h c hc).1
      rw [parseEntry, splitAtFirst, if_neg hsemi]
      simp only [if_neg hlws]
      rfl
  | @weighted coding before behind left right q n h hbefore hbehind hname hleft hright hvalue =>
      obtain ⟨hcore, hquality⟩ := parseParams_of_gaps hname hleft hright hvalue
      have hsplit : splitAtFirst ';' (coding ++ before ++ ';' ::
          (behind ++ n :: (left ++ '=' :: (right ++ q)))) =
          some (coding ++ before, behind ++ n :: (left ++ '=' :: (right ++ q))) := by
        refine splitAtFirst_append (fun hmem => ?_) _
        rcases List.mem_append.mp hmem with hmem | hmem
        · exact (h ';' hmem).2 rfl
        · exact not_mem_gap rfl hbefore hmem
      have hcoding : trimLws (coding ++ before) = coding :=
        trimLws_append lws_nil hbefore
          (trimmed_of_forall fun c hc => (h c hc).1)
      have hlws := not_any_isLws_iff.mpr fun c hc => (h c hc).1
      have hparams : trimLws (behind ++ n :: (left ++ '=' :: (right ++ q))) =
          n :: (left ++ '=' :: (right ++ q)) := by
        have htrim := trimLws_append hbehind lws_nil hcore
        rw [List.append_nil] at htrim
        exact htrim
      rw [parseEntry, hsplit, entryResult]
      cases hq : parseQvalue q with
      | none => simp only [hcoding, if_neg hlws, hparams, hquality, hq]
      | some k => simp only [hcoding, if_neg hlws, hparams, hquality, hq]

/-- Only a value that cannot be read makes an entry invalid. -/
theorem entryResult_eq_invalid_iff {coding q : List Char} (h : isQvalue q = true) :
    entryResult coding q = .invalid ↔ q = ['0', '.'] := by
  rw [entryResult]
  cases hk : parseQvalue q with
  | none =>
      refine iff_of_true rfl (by_contra fun hne => ?_)
      obtain ⟨k, hk'⟩ := (parseQvalue_iff q).mpr ⟨h, hne⟩
      rw [hk] at hk'
      cases hk'
  | some k =>
      refine iff_of_false ?_ ((parseQvalue_iff q).mp ⟨k, hk⟩).2
      simp only
      split
      · exact fun h => EntryResult.noConfusion h
      · exact fun h => EntryResult.noConfusion h

/-- The coding is allowed if the value is not zero. -/
theorem entryResult_of_readable {q : List Char} (h : isQvalue q = true) (hq : q ≠ ['0', '.'])
    (coding : List Char) :
    ∃ k, entryResult coding q =
      if isZero q = true then .skip else .allow ⟨toKnownAlgo coding, k⟩ := by
  obtain ⟨k, hk⟩ := (parseQvalue_iff q).mpr ⟨h, hq⟩
  refine ⟨k, ?_⟩
  rw [entryResult, hk]
  simp only
  rw [← if_congr (parseQvalue_eq_zero_iff hk) rfl rfl]

theorem Entry.isQvalue (h : Entry Http.loose e coding q) :
    isQvalue q = true := by
  cases h with
  | bare h => rfl
  | weighted h hbefore hbehind hname hleft hright hvalue => exact hvalue

theorem eq_trimLws_append {str rest : List Char}
    (hhead : ∀ c ∈ (str ++ rest).head?, isLws c = false) :
    ∃ behind, str = trimLws str ++ behind ∧ ∀ c ∈ behind, isLws c = true := by
  obtain ⟨before, behind, hstr, hbefore, hbehind, -⟩ := exists_trimLws str
  have hnil : before = [] := by
    refine eq_nil_of_head (trimLws str ++ behind ++ rest) hbefore ?_
    rw [← List.append_assoc, ← hstr]
    exact hhead
  rw [hnil, List.nil_append] at hstr
  exact ⟨behind, hstr, hbehind⟩

theorem eq_append_trimLws (front : List Char)
    (hlast : ∀ c ∈ (front ++ str).getLast?, isLws c = false) :
    ∃ before, str = before ++ trimLws str ∧ (∀ c ∈ before, isLws c = true) ∧
      Trimmed (trimLws str) := by
  obtain ⟨before, behind, hstr, hbefore, hbehind, htrim⟩ := exists_trimLws str
  have hnil : behind = [] := by
    refine eq_nil_of_last (front ++ (before ++ trimLws str)) hbehind ?_
    rw [List.append_assoc, List.append_assoc, ← hstr]
    exact hlast
  rw [hnil, List.append_nil] at hstr
  exact ⟨before, hstr, hbefore, htrim⟩

theorem exists_params {params : List Char} (htrim : Trimmed params) {k : ℕ}
    (h : parseParams params = some k) :
    ∃ n left right q, params = n :: (left ++ '=' :: (right ++ q)) ∧ (n = 'q' ∨ n = 'Q') ∧
      loose.gap left ∧ loose.gap right ∧ isQvalue q = true ∧ q ≠ ['0', '.'] := by
  rw [parseParams] at h
  obtain ⟨⟨x, y⟩, hequals, hvalue⟩ := Option.bind_eq_some_iff.mp h
  simp only at hvalue
  split at hvalue
  · rename_i hname
    obtain ⟨hparams, -⟩ := exists_splitAtFirst hequals
    have hqvalue := (parseQvalue_iff (trimLws y)).mp ⟨k, hvalue⟩
    rw [hparams] at htrim
    obtain ⟨left, hx, hleft⟩ := eq_trimLws_append htrim.1
    obtain ⟨right, hy, hright, -⟩ := eq_append_trimLws (x ++ ['=']) (by
      rw [List.append_assoc]
      exact htrim.2)
    obtain ⟨n, hn, hname'⟩ : ∃ n, trimLws x = [n] ∧ (n = 'q' ∨ n = 'Q') := by
      rcases iequalsSl_q_iff.mp hname with hq | hq
      · exact ⟨'q', hq, .inl rfl⟩
      · exact ⟨'Q', hq, .inr rfl⟩
    refine ⟨n, left, right, trimLws y, ?_, hname', hleft, hright, hqvalue⟩
    rw [← hy, hparams]
    rw [hn] at hx
    rw [show x = n :: left from hx]
    rfl
  · cases hvalue

theorem exists_readable {e : List Char} (htrim : Trimmed e) (h : parseEntry e ≠ .invalid) :
    ∃ coding q, Entry readable e coding q := by
  rw [parseEntry] at h
  cases hsplit : splitAtFirst ';' e with
  | none =>
      rw [hsplit] at h
      simp only at h
      split at h
      · exact absurd rfl h
      · rename_i hany
        have hsemi : ';' ∉ e := by
          intro hmem
          rw [splitAtFirst, if_pos hmem] at hsplit
          cases hsplit
        exact ⟨e, ['1'], .bare fun c hc =>
          ⟨not_any_isLws_iff.mp hany c hc, fun heq => hsemi (heq ▸ hc)⟩⟩
  | some sides =>
      obtain ⟨a, b⟩ := sides
      rw [hsplit] at h
      simp only at h
      split at h
      · exact absurd rfl h
      · rename_i hany
        obtain ⟨rfl, hsemi⟩ := exists_splitAtFirst hsplit
        obtain ⟨before, ha, hbefore⟩ := eq_trimLws_append htrim.1
        obtain ⟨behind, hb, hbehind, hbtrim⟩ := eq_append_trimLws (a ++ [';']) (by
          rw [List.append_assoc]
          exact htrim.2)
        cases hparams : parseParams (trimLws b) with
        | none =>
            rw [hparams] at h
            exact absurd rfl h
        | some k =>
            obtain ⟨n, left, right, q, hcore, hname, hleft, hright, hvalue⟩ :=
              exists_params hbtrim hparams
            have hcoding : ∀ c ∈ trimLws a, isLws c = false ∧ c ≠ ';' := by
              refine fun c hc => ⟨not_any_isLws_iff.mp hany c hc, ?_⟩
              rintro rfl
              refine hsemi ?_
              rw [ha]
              exact List.mem_append_left _ hc
            have hentry : Entry readable _ (trimLws a) q :=
              .weighted hcoding hbefore hbehind hname hleft hright hvalue
            rw [← ha, ← hcore, ← hb] at hentry
            exact ⟨trimLws a, q, hentry⟩

end Webpp.Http
