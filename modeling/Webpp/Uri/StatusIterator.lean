import Mathlib.Data.Set.List
import Webpp.Foundation.Bits
import Webpp.Foundation.Loop
import Webpp.Foundation.Run
import Webpp.Uri.Status

/-!
# `uri_status_iterator`

A status is one word: the number and the error bit are the value, and every other bit is a
warning. The iterator removes the warnings from the highest one on, and the value is what is left
behind the last one. A status without warnings starts with `get_warning`, which is zero there, and
the value is not shown.
-/

namespace Webpp.Uri

/-- `uri_status_type` -/
abbrev StatusWord := BitVec 32

namespace StatusWord

open HighestBit Loop Run

/-! ## The word -/

def validBit : StatusWord := 0#32
def errorBit : StatusWord := 1#32 <<< 20
def warningBit : StatusWord := errorBit >>> 1
def valuesMask : StatusWord := 0b11111111#32 ||| errorBit ||| validBit
def warningsMask : StatusWord := ~~~valuesMask

def hasWarnings (status : StatusWord) : Bool := status &&& warningsMask != 0#32

def isValid (status : StatusWord) : Bool := errorBit &&& status == 0#32

def hasWarning (status warning : StatusWord) : Bool := status &&& warning == warning

def hasError (status : StatusWord) : Bool := errorBit &&& status == errorBit

def getValue (status : StatusWord) : StatusWord := status &&& valuesMask

def setValid (status value : StatusWord) : StatusWord := status &&& ~~~valuesMask ||| value

def setError (_status value : StatusWord) : StatusWord := value

def setWarning (status value : StatusWord) : StatusWord := status ||| value

def getWarning (status : StatusWord) : StatusWord := bitFloor (warningsMask &&& status)

/-! ## The iterator -/

structure UriStatusIterator where
  status : StatusWord
  current : StatusWord
  deriving DecidableEq

def UriStatusIterator.ofStatus (status : StatusWord) : UriStatusIterator :=
  ⟨status, getWarning status⟩

/-- `operator++` -/
def UriStatusIterator.next (it : UriStatusIterator) : UriStatusIterator :=
  if hasWarnings it.status then
    let leftMostWarningBit := bitFloor (warningsMask &&& it.status)
    let status := it.status &&& ~~~leftMostWarningBit
    ⟨status, if hasWarnings status then getWarning status else status⟩
  else ⟨0#32, 0#32⟩

/-- `begin` -/
def first (status : StatusWord) : UriStatusIterator := .ofStatus status

/-- `end` -/
def last (_status : StatusWord) : UriStatusIterator := ⟨0#32, 0#32⟩

/-- A round of a loop over the range of a status; two iterators are equal where their statuses
are. -/
def rangeStep (s : UriStatusIterator × List StatusWord) :
    Except Unit (Flow (UriStatusIterator × List StatusWord) (List StatusWord)) :=
  if s.1.status = (last s.1.status).status then .ok (.done s.2)
  else .ok (.next (s.1.next, s.2 ++ [s.1.current]))

/-- What the iteration shows. A round removes a bit, or is the last but one. -/
def shown (status : StatusWord) : Except Unit (List StatusWord) :=
  loop rangeStep () (32 + 2) (first status, [])

/-! ## Words that hold warnings and a value -/

variable {W : ℕ → Prop} {value s : StatusWord} {i : ℕ}

/-- The word holds the warnings of `W`, which are given by their bits, and the value. -/
structure Holds (W : ℕ → Prop) (value s : StatusWord) : Prop where
  value_eq : valuesMask &&& s = value
  warning_iff : ∀ i, warningsMask.getLsbD i = true → (s.getLsbD i = true ↔ W i)

theorem getLsbD_valuesMask (hi : warningsMask.getLsbD i = true) : valuesMask.getLsbD i = false := by
  rw [warningsMask, BitVec.getLsbD_not, Bool.and_eq_true, Bool.not_eq_true'] at hi
  exact hi.2

theorem mask_twoPow (hi : warningsMask.getLsbD i = true) :
    valuesMask &&& BitVec.twoPow 32 i = 0#32 := by
  refine BitVec.eq_of_getLsbD_eq fun j hj => ?_
  rw [BitVec.getLsbD_and, BitVec.getLsbD_twoPow, BitVec.getLsbD_zero]
  by_cases hij : i = j
  · rw [← hij, getLsbD_valuesMask hi, Bool.false_and]
  · simp [hij]

theorem getLsbD_of_value (hvalue : warningsMask &&& value = 0#32)
    (hi : warningsMask.getLsbD i = true) : value.getLsbD i = false := by
  have hbit := congrArg (BitVec.getLsbD · i) hvalue
  simp only [BitVec.getLsbD_and, BitVec.getLsbD_zero, hi, Bool.true_and] at hbit
  exact hbit

theorem values_of_value (hvalue : warningsMask &&& value = 0#32) : valuesMask &&& value = value := by
  refine BitVec.eq_of_getLsbD_eq fun j hj => ?_
  have hbit := congrArg (BitVec.getLsbD · j) hvalue
  simp only [warningsMask, BitVec.getLsbD_and, BitVec.getLsbD_not, BitVec.getLsbD_zero] at hbit ⊢
  revert hbit
  cases valuesMask.getLsbD j <;> simp [hj]

theorem Holds.setWarning (h : Holds W value s) (hi : warningsMask.getLsbD i = true) :
    Holds (fun j => j = i ∨ W j) value (StatusWord.setWarning s (BitVec.twoPow 32 i)) where
  value_eq := by
    rw [StatusWord.setWarning, BitVec.and_or_distrib_left, mask_twoPow hi, h.value_eq,
      BitVec.or_zero]
  warning_iff j hj := by
    have hlt : i < 32 := BitVec.lt_of_getLsbD hi
    rw [StatusWord.setWarning, BitVec.getLsbD_or, BitVec.getLsbD_twoPow, Bool.or_eq_true,
      h.warning_iff j hj, or_comm]
    simp [hlt, eq_comm]

theorem Holds.setValid (h : Holds W value s) {value' : StatusWord}
    (hvalue : warningsMask &&& value' = 0#32) :
    Holds W value' (StatusWord.setValid s value') where
  value_eq := by
    rw [StatusWord.setValid, BitVec.and_or_distrib_left, values_of_value hvalue,
      BitVec.and_comm s, ← BitVec.and_assoc, BitVec.and_not_self]
    exact (congrArg (· ||| value') BitVec.zero_and).trans BitVec.zero_or
  warning_iff i hi := by
    rw [StatusWord.setValid, BitVec.getLsbD_or, getLsbD_of_value hvalue hi, Bool.or_false,
      BitVec.getLsbD_and, ← warningsMask, hi, Bool.and_true]
    exact h.warning_iff i hi

theorem holds_setError (hvalue : warningsMask &&& value = 0#32) :
    Holds (fun _ => False) value (setError s value) where
  value_eq := values_of_value hvalue
  warning_iff i hi := by
    rw [setError, getLsbD_of_value hvalue hi]
    exact iff_of_false Bool.false_ne_true id

/-! ## The iteration -/

/-- The warnings in the word, the highest one first. -/
def warningBits (s : StatusWord) : List ℕ := setBits (warningsMask &&& s)

theorem mem_warningBits : i ∈ warningBits s ↔
    warningsMask.getLsbD i = true ∧ s.getLsbD i = true := by
  rw [warningBits, mem_setBits, BitVec.getLsbD_and, Bool.and_eq_true]

theorem hasWarnings_iff : hasWarnings s = true ↔ warningBits s ≠ [] := by
  rw [hasWarnings, bne_iff_ne, BitVec.and_comm, warningBits, ne_eq, ne_eq, setBits_eq_nil_iff]

theorem exists_clearBit (h : warningBits s ≠ []) : ∃ i,
    warningsMask.getLsbD i = true ∧ getWarning s = BitVec.twoPow 32 i ∧
      warningBits s = i :: warningBits (clearBit s i) ∧
      valuesMask &&& clearBit s i = valuesMask &&& s := by
  obtain ⟨i, hi⟩ := exists_isHighest (mt setBits_eq_nil_iff.mpr h)
  have hmask : warningsMask.getLsbD i = true := by
    have hset := hi.set
    rw [BitVec.getLsbD_and, Bool.and_eq_true] at hset
    exact hset.1
  refine ⟨i, hmask, hi.bitFloor_eq, ?_, ?_⟩
  · rw [warningBits, hi.setBits_eq, warningBits, clearBit, clearBit, BitVec.and_assoc]
  · refine BitVec.eq_of_getLsbD_eq fun j hj => ?_
    rw [BitVec.getLsbD_and, BitVec.getLsbD_and, getLsbD_clearBit]
    by_cases hij : j = i
    · rw [hij, getLsbD_valuesMask hmask, Bool.false_and, Bool.false_and]
    · simp [hij]

theorem values_eq_self (h : warningBits s = []) : valuesMask &&& s = s :=
  values_of_value (setBits_eq_nil_iff.mp h)

/-- A value is shown where it is not zero. -/
def shownValue (value : StatusWord) : List StatusWord := if value = 0#32 then [] else [value]

theorem rangeStep_of_ne {it : UriStatusIterator} (h : it.status ≠ 0#32) (out : List StatusWord) :
    rangeStep (it, out) = .ok (.next (it.next, out ++ [it.current])) := if_neg h

theorem rangeStep_last (current : StatusWord) (out : List StatusWord) :
    rangeStep (⟨0#32, current⟩, out) = .ok (.done out) := rfl

theorem loop_value (hs : hasWarnings s = false) (current : StatusWord) (out : List StatusWord)
    (n : ℕ) : loop rangeStep () (n + 2) (⟨s, current⟩, out) =
      .ok (out ++ if s = 0#32 then [] else [current]) := by
  by_cases hzero : s = 0#32
  · rw [hzero, loop_of_done (rangeStep_last current out), if_pos rfl, List.append_nil]
  · have hnext : (UriStatusIterator.mk s current).next = ⟨0#32, 0#32⟩ := by
      rw [UriStatusIterator.next, if_neg (by simp [hs])]
    rw [loop_of_next (rangeStep_of_ne hzero out), hnext, loop_of_done (rangeStep_last _ _),
      if_neg hzero]

theorem loop_warnings (hs : hasWarnings s = true) (out : List StatusWord) {n : ℕ}
    (hn : (warningBits s).length + 2 ≤ n) :
    loop rangeStep () n (.ofStatus s, out) =
      .ok (out ++ (warningBits s).map (BitVec.twoPow 32) ++ shownValue (valuesMask &&& s)) := by
  induction n generalizing s out with
  | zero => exact absurd hn (Nat.not_succ_le_zero _)
  | succ n ih =>
    obtain ⟨i, hi, hcurrent, hbits, hvalue⟩ := exists_clearBit (hasWarnings_iff.mp hs)
    have hne : s ≠ 0#32 := by
      rintro rfl
      exact absurd hs (by decide)
    have hnext : (UriStatusIterator.ofStatus s).next = ⟨clearBit s i,
        if hasWarnings (clearBit s i) then getWarning (clearBit s i) else clearBit s i⟩ := by
      rw [UriStatusIterator.next, UriStatusIterator.ofStatus, if_pos hs, ← getWarning, hcurrent]
      rfl
    have hfirst : (UriStatusIterator.ofStatus s).current = BitVec.twoPow 32 i := hcurrent
    have hout := List.append_cons out (BitVec.twoPow 32 i)
      ((warningBits (clearBit s i)).map (BitVec.twoPow 32))
    rw [hbits, List.length_cons] at hn
    rw [loop_of_next (rangeStep_of_ne hne out), hnext, hfirst, hbits, List.map_cons, hout, ← hvalue]
    cases hleft : hasWarnings (clearBit s i) with
    | true =>
        rw [if_pos rfl]
        exact ih hleft _ (by omega)
    | false =>
        have hnil : warningBits (clearBit s i) = [] := by
          rw [← not_not (a := _ = []), ← ne_eq, ← hasWarnings_iff, hleft]
          exact Bool.false_ne_true
        obtain ⟨m, rfl⟩ : ∃ m, n = m + 2 := ⟨n - 2, by omega⟩
        rw [if_neg Bool.false_ne_true, loop_value hleft, hnil, List.map_nil, List.append_nil,
          values_eq_self hnil, shownValue]

theorem length_warningBits_le (s : StatusWord) : (warningBits s).length ≤ 32 := by
  have hle := List.length_filter_le (warningsMask &&& s).getLsbD (List.range 32).reverse
  rw [List.length_reverse, List.length_range] at hle
  exact hle

theorem shown_eq (s : StatusWord) : shown s = .ok
    (if warningBits s = [] then if s = 0#32 then [] else [0#32]
      else (warningBits s).map (BitVec.twoPow 32) ++ shownValue (valuesMask &&& s)) := by
  rw [shown, first]
  cases hs : hasWarnings s with
  | true =>
      rw [if_neg (hasWarnings_iff.mp hs), loop_warnings hs [] (by
        have hle := length_warningBits_le s
        omega), List.nil_append]
  | false =>
      have hnil : warningBits s = [] := by
        rw [← not_not (a := _ = []), ← ne_eq, ← hasWarnings_iff, hs]
        exact Bool.false_ne_true
      have hcurrent : getWarning s = 0#32 := by
        rw [getWarning, setBits_eq_nil_iff.mp hnil, bitFloor, if_pos rfl]
      rw [if_pos hnil, UriStatusIterator.ofStatus, hcurrent, loop_value hs, List.nil_append]

section Kinds

variable {ω : Type} {bit : ω → ℕ} {P : ω → Prop}

/-- The iteration shows each of the warnings once, and then the value. -/
def Lists (bit : ω → ℕ) (P : ω → Prop) (value s : StatusWord) : Prop :=
  ∃ ws : List ω, ws.Nodup ∧ (∀ w, w ∈ ws ↔ P w) ∧
    shown s = .ok (ws.map (fun w => BitVec.twoPow 32 (bit w)) ++ shownValue value)

theorem Holds.mem_iff (hmask : ∀ w, warningsMask.getLsbD (bit w) = true)
    (h : Holds (fun i => ∃ w, P w ∧ bit w = i) value s) (i : ℕ) :
    i ∈ warningBits s ↔ ∃ w, P w ∧ bit w = i := by
  rw [mem_warningBits]
  constructor
  · rintro ⟨hi, hset⟩
    exact (h.warning_iff i hi).mp hset
  · rintro ⟨w, hw, rfl⟩
    exact ⟨hmask w, (h.warning_iff _ (hmask w)).mpr ⟨w, hw, rfl⟩⟩

theorem lists_of_ne_nil (hinj : Function.Injective bit)
    (hmem : ∀ i, i ∈ warningBits s ↔ ∃ w, P w ∧ bit w = i) (hvalue : valuesMask &&& s = value)
    (hne : warningBits s ≠ []) : Lists bit P value s := by
  have hrange : warningBits s ∈ Set.range (List.map bit) := by
    rw [Set.range_list_map]
    intro i hi
    obtain ⟨w, -, hw⟩ := (hmem i).mp hi
    exact ⟨w, hw⟩
  obtain ⟨ws, hws⟩ := hrange
  have hmemws : ∀ w, w ∈ ws ↔ P w := by
    intro w
    rw [← List.mem_map_of_injective hinj, hws, hmem]
    constructor
    · rintro ⟨w', hw', heq⟩
      exact hinj heq ▸ hw'
    · exact fun hw => ⟨w, hw, rfl⟩
  have hnodup : ws.Nodup := by
    refine List.Nodup.of_map bit ?_
    rw [hws]
    exact nodup_setBits _
  have hshown := shown_eq s
  rw [if_neg hne, hvalue, ← hws, List.map_map] at hshown
  exact ⟨ws, hnodup, hmemws, hshown⟩

/-- A value alone is not shown, unless it is zero. -/
theorem lists_value_iff (hnil : warningBits value = []) (hnone : ¬∃ w, P w) :
    Lists bit P value value ↔ value = 0#32 := by
  have hshown := shown_eq value
  rw [if_pos hnil] at hshown
  constructor
  · rintro ⟨ws, -, hws, hlist⟩
    by_contra hne
    have hempty : ws = [] :=
      List.eq_nil_iff_forall_not_mem.mpr fun w hw => hnone ⟨w, (hws w).mp hw⟩
    rw [hshown, if_neg hne, hempty, shownValue, if_neg hne, Except.ok.injEq] at hlist
    exact hne (List.singleton_inj.mp hlist).symm
  · rintro rfl
    exact ⟨[], List.nodup_nil, fun w => iff_of_false List.not_mem_nil fun hw => hnone ⟨w, hw⟩,
      hshown⟩

theorem Holds.lists_iff (hinj : Function.Injective bit)
    (hmask : ∀ w, warningsMask.getLsbD (bit w) = true)
    (h : Holds (fun i => ∃ w, P w ∧ bit w = i) value s) :
    Lists bit P value s ↔ (∃ w, P w) ∨ value = 0#32 := by
  have hmem := h.mem_iff hmask
  by_cases hnil : warningBits s = []
  · have hnone : ¬∃ w, P w := by
      rintro ⟨w, hw⟩
      have hbit := (hmem (bit w)).mpr ⟨w, hw, rfl⟩
      rw [hnil] at hbit
      exact List.not_mem_nil hbit
    obtain rfl : s = value := (values_eq_self hnil).symm.trans h.value_eq
    rw [or_iff_right hnone]
    exact lists_value_iff hnil hnone
  · refine iff_of_true (lists_of_ne_nil hinj hmem h.value_eq hnil) (.inl ?_)
    obtain ⟨i, hi⟩ := List.exists_mem_of_ne_nil _ hnil
    obtain ⟨w, hw, -⟩ := (hmem i).mp hi
    exact ⟨w, hw⟩

end Kinds

/-! ## Calls -/

/-- A value of `uri_status` that is valid or an error: it has no bit of a warning. -/
structure Value where
  word : StatusWord
  noWarning : warningsMask &&& word = 0#32

/-- A value of `uri_status` that is a warning: it is the one bit. -/
structure Warning where
  bit : ℕ
  isWarning : warningsMask.getLsbD bit = true
  deriving DecidableEq

def Warning.word (w : Warning) : StatusWord := BitVec.twoPow 32 w.bit

inductive Call where
  | setWarning (w : Warning)
  | setValid (value : Value)
  | setError (value : Value)

def Call.apply (s : StatusWord) : Call → StatusWord
  | setWarning w => StatusWord.setWarning s w.word
  | setValid value => StatusWord.setValid s value.word
  | setError value => StatusWord.setError s value.word

/-- The warnings since the last error, and the last value. -/
structure Record where
  warnings : List Warning
  value : Value

def Record.start : Record := ⟨[], 0#32, BitVec.and_zero⟩

def Record.note (r : Record) : Call → Record
  | .setWarning w => { r with warnings := w :: r.warnings }
  | .setValid value => { r with value := value }
  | .setError value => ⟨[], value⟩

/-- The word behind the calls, from an unparsed status on. -/
def status (calls : List Call) : StatusWord := run Call.apply 0#32 calls

/-- What was recorded of the calls. -/
def record (calls : List Call) : Record := run Record.note .start calls

/-- The word holds what was recorded. -/
def Record.Kept (r : Record) (s : StatusWord) : Prop :=
  Holds (fun i => ∃ w, w ∈ r.warnings ∧ w.bit = i) r.value.word s

theorem Record.kept_start : Record.start.Kept 0#32 :=
  ⟨BitVec.and_zero, fun _ _ => by simp [Record.start]⟩

theorem Record.Kept.note {r : Record} (h : r.Kept s) (call : Call) :
    (r.note call).Kept (call.apply s) := by
  cases call with
  | setWarning w =>
      have hset := Holds.setWarning h w.isWarning
      refine ⟨hset.value_eq, fun i hi => (hset.warning_iff i hi).trans ?_⟩
      simp only [Record.note, List.exists_mem_cons_iff]
      exact or_congr_left eq_comm
  | setValid value => exact Holds.setValid h value.noWarning
  | setError value =>
      have hset := holds_setError (s := s) value.noWarning
      refine ⟨hset.value_eq, fun i hi => (hset.warning_iff i hi).trans ?_⟩
      simp [Record.note]

theorem kept_run {r : Record} (h : r.Kept s) (calls : List Call) :
    (run Record.note r calls).Kept (run Call.apply s calls) := by
  induction calls generalizing r s with
  | nil => exact h
  | cons call calls ih => exact ih (h.note call)

theorem kept_status (calls : List Call) : (record calls).Kept (status calls) :=
  kept_run Record.kept_start calls

theorem Warning.bit_injective : Function.Injective Warning.bit := by
  rintro ⟨i, hi⟩ ⟨j, hj⟩ rfl
  rfl

theorem Record.Kept.setWarning_eq {r : Record} (h : r.Kept s) {w : Warning} (hw : w ∈ r.warnings) :
    StatusWord.setWarning s w.word = s := by
  have hset : s.getLsbD w.bit = true := (h.warning_iff _ w.isWarning).mpr ⟨w, hw, rfl⟩
  refine BitVec.eq_of_getLsbD_eq fun j hj => ?_
  rw [StatusWord.setWarning, Warning.word, BitVec.getLsbD_or, BitVec.getLsbD_twoPow]
  by_cases hbit : w.bit = j
  · rw [← hbit, hset, Bool.true_or]
  · simp [hbit]

/-- The iteration shows the warnings since the last error and the last value, and a warning that
is set again changes nothing. -/
def IteratesRight (calls : List Call) : Prop :=
  Lists Warning.bit (· ∈ (record calls).warnings) (record calls).value.word (status calls) ∧
    ∀ w ∈ (record calls).warnings, status (calls ++ [.setWarning w]) = status calls

/-- The iteration is right where a warning was set since the last error, or the last value is
zero. -/
theorem statusIteratesRight_iff (calls : List Call) :
    IteratesRight calls ↔ (record calls).warnings ≠ [] ∨ (record calls).value.word = 0#32 := by
  have hkept := kept_status calls
  have hagain : ∀ w ∈ (record calls).warnings,
      status (calls ++ [.setWarning w]) = status calls := by
    intro w hw
    rw [status, run_append]
    exact hkept.setWarning_eq hw
  rw [IteratesRight, and_iff_left hagain,
    Holds.lists_iff Warning.bit_injective Warning.isWarning hkept]
  exact or_congr_left
    ⟨fun hsome => hsome.elim fun _ => List.ne_nil_of_mem, List.exists_mem_of_ne_nil _⟩

/-- `valid` alone is shown as zero. -/
theorem not_statusIteratesRight : ¬∀ calls, IteratesRight calls := by
  intro h
  have hright := (statusIteratesRight_iff [.setValid ⟨1#32, by decide⟩]).mp (h _)
  revert hright
  simp [record, Record.note, Record.start]

end StatusWord

/-! ## The status of the parser -/

open StatusWord

/-- The number of a value. -/
def UriStatus.word : UriStatus → StatusWord
  | unparsed => 0#32
  | valid => validBit ||| 1#32
  | validPunycode => validBit ||| 2#32
  | validPathOrAuthority => validBit ||| 3#32
  | validAuthority => validBit ||| 4#32
  | validFileHost => validBit ||| 5#32
  | validPort => validBit ||| 6#32
  | validAuthorityEnd => validBit ||| 7#32
  | validPath => validBit ||| 8#32
  | validOpaquePath => validBit ||| 9#32
  | validQueries => validBit ||| 10#32
  | validFragment => validBit ||| 11#32
  | emptyString => errorBit ||| 2#32
  | invalidSchemeCharacter => errorBit ||| 3#32
  | schemeEndedUnexpectedly => errorBit ||| 4#32
  | missingSchemeNonRelativeUrl => errorBit ||| 6#32
  | hostMissing => errorBit ||| 13#32
  | invalidHostCodePoint => errorBit ||| 14#32
  | invalidDomainCodePoint => errorBit ||| 15#32
  | ipTooLittleOctets => errorBit ||| 253#32
  | ipTooManyOctets => errorBit ||| 252#32
  | ipInvalidOctetRange => errorBit ||| 251#32
  | ipBadEnding => errorBit ||| 248#32
  | ipInvalidCharacter => errorBit ||| 249#32
  | ipInvalidPrefix => errorBit ||| 247#32
  | ipInvalidColonUsage => errorBit ||| 246#32
  | ipv6Unclosed => errorBit ||| 16#32
  | ipv6CharAfterClosing => errorBit ||| 17#32
  | portOutOfRange => errorBit ||| 18#32
  | portInvalid => errorBit ||| 19#32
  | invalidQueriesCharacter => errorBit ||| 20#32

/-- The place of a warning: `warning_bit` is at 19. -/
def UriWarning.bit : UriWarning → ℕ
  | invalidCharacter => 19 - 0
  | missingFollowingSolidus => 19 - 1
  | hasCredentials => 19 - 2
  | ipv4TrailingEmptyOctet => 19 - 3
  | ipv4NonDecimalOctet => 19 - 4
  | reverseSolidusUsed => 19 - 5
  | windowsDriveLetterUsed => 19 - 6
  | windowsDriveLetterAsHost => 19 - 8

def UriWarning.word (w : UriWarning) : StatusWord := BitVec.twoPow 32 w.bit

theorem UriStatus.noWarning (value : UriStatus) : warningsMask &&& value.word = 0#32 := by
  cases value <;> decide

theorem UriStatus.word_injective : Function.Injective UriStatus.word := by
  intro value value' h
  cases value <;> cases value' <;> first | rfl | exact absurd h (by decide)

theorem UriStatus.hasError_word (value : UriStatus) :
    StatusWord.hasError value.word = value.hasError ∧ isValid value.word = !value.hasError := by
  cases value <;> decide

theorem UriWarning.isWarning (w : UriWarning) : warningsMask.getLsbD w.bit = true := by
  cases w <;> decide

theorem UriWarning.bit_injective : Function.Injective UriWarning.bit := by
  intro w w' h
  cases w <;> cases w' <;> first | rfl | exact absurd h (by decide)

namespace Status

variable {status : Status} {s : StatusWord}

/-- The word of a status: its value, and the bits of its warnings. -/
def Word (status : Status) (s : StatusWord) : Prop :=
  Holds (fun i => ∃ w, w ∈ status.warnings ∧ w.bit = i) status.value.word s

theorem word_start : Word .start 0#32 :=
  ⟨BitVec.and_zero, fun _ _ => by simp [start]⟩

theorem Word.setValid (h : Word status s) (value : UriStatus) :
    Word (status.setValid value) (StatusWord.setValid s value.word) :=
  Holds.setValid h value.noWarning

theorem Word.setError (status : Status) (s : StatusWord) (value : UriStatus) :
    Word (status.setError value) (StatusWord.setError s value.word) where
  value_eq := (holds_setError (s := s) value.noWarning).value_eq
  warning_iff i hi := by
    rw [(holds_setError (s := s) value.noWarning).warning_iff i hi]
    simp [Status.setError]

theorem Word.setWarning (h : Word status s) (w : UriWarning) :
    Word (status.setWarning w) (StatusWord.setWarning s w.word) where
  value_eq := (Holds.setWarning h w.isWarning).value_eq
  warning_iff i hi := by
    refine ((Holds.setWarning h w.isWarning).warning_iff i hi).trans ?_
    simp only [Status.setWarning, Finset.mem_insert, or_and_right, exists_or, exists_eq_left]
    exact or_congr_left eq_comm

theorem Word.lists_iff (h : Word status s) :
    Lists UriWarning.bit (· ∈ status.warnings) status.value.word s ↔
      status.warnings.Nonempty ∨ status.value = .unparsed := by
  rw [Holds.lists_iff UriWarning.bit_injective UriWarning.isWarning h]
  exact or_congr_right ⟨fun heq => UriStatus.word_injective heq, fun heq => by rw [heq]; rfl⟩

/-- What the functions on the word tell is what the status is. -/
structure Agrees (status : Status) (s : StatusWord) : Prop where
  getValue : getValue s = status.value.word
  hasError : StatusWord.hasError s = status.hasError
  isValid : isValid s = !status.hasError
  hasWarning : ∀ w : UriWarning, hasWarning s w.word = true ↔ w ∈ status.warnings
  hasWarnings : hasWarnings s = true ↔ status.warnings.Nonempty
  lists : Lists UriWarning.bit (· ∈ status.warnings) status.value.word s ↔
    status.warnings.Nonempty ∨ status.value = .unparsed

theorem Word.agrees (h : Word status s) : Agrees status s := by
  have hbit : errorBit &&& s = errorBit &&& status.value.word := by
    rw [← h.value_eq, ← BitVec.and_assoc]
    rfl
  refine ⟨(BitVec.and_comm s _).trans h.value_eq, ?_, ?_, fun w => ?_, ?_, h.lists_iff⟩
  · rw [StatusWord.hasError, hbit]
    exact status.value.hasError_word.1
  · rw [isValid, hbit]
    exact status.value.hasError_word.2
  · have hset : s.getLsbD w.bit = true ↔ w ∈ status.warnings :=
      (h.warning_iff _ w.isWarning).trans
        ⟨fun ⟨_, hw, heq⟩ => UriWarning.bit_injective heq ▸ hw, fun hw => ⟨w, hw, rfl⟩⟩
    have hpow : (0#32 == w.word) = false := by cases w <;> rfl
    rw [← hset, StatusWord.hasWarning, UriWarning.word, BitVec.and_twoPow, ← UriWarning.word]
    cases s.getLsbD w.bit <;> simp [hpow]
  · have hmem := h.mem_iff UriWarning.isWarning
    rw [hasWarnings_iff]
    constructor
    · intro hne
      obtain ⟨i, hi⟩ := List.exists_mem_of_ne_nil _ hne
      obtain ⟨w, hw, -⟩ := (hmem i).mp hi
      exact ⟨w, hw⟩
    · rintro ⟨w, hw⟩
      exact List.ne_nil_of_mem ((hmem w.bit).mpr ⟨w, hw, rfl⟩)

end Status

/-- What a parser does to its status. -/
inductive StatusCall where
  | setValid (value : UriStatus)
  | setError (value : UriStatus)
  | setWarning (warning : UriWarning)

namespace StatusCall

def apply (status : Status) : StatusCall → Status
  | setValid value => status.setValid value
  | setError value => status.setError value
  | setWarning warning => status.setWarning warning

def applyWord (s : StatusWord) : StatusCall → StatusWord
  | setValid value => StatusWord.setValid s value.word
  | setError value => StatusWord.setError s value.word
  | setWarning warning => StatusWord.setWarning s warning.word

theorem word_run {status : Status} {s : StatusWord} (h : status.Word s) (calls : List StatusCall) :
    (Run.run apply status calls).Word (Run.run applyWord s calls) := by
  induction calls generalizing status s with
  | nil => exact h
  | cons call calls ih =>
      cases call with
      | setValid value => exact ih (h.setValid value)
      | setError value => exact ih (.setError status s value)
      | setWarning warning => exact ih (h.setWarning warning)

/-- The word and the status agree behind all calls of a parser. -/
theorem agrees_run (calls : List StatusCall) :
    (Run.run apply .start calls).Agrees (Run.run applyWord 0#32 calls) :=
  (word_run Status.word_start calls).agrees

end StatusCall

end Webpp.Uri
