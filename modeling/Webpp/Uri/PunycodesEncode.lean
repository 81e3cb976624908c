import Webpp.Uri.PunycodeRfc
import Webpp.Uri.PunycodesDecode
import Webpp.Uri.PunycodesSort

/-!
# The encoder of `utf8_to_punycode`

The registers of the function follow the encoder of the specification, as long as the output is
within its limit, and none of the results on `delta` has to be reduced.
-/

namespace Webpp.Uri.Punycodes

open Bootstring
open PunycodeRfc (punycode digitByte encodeLabel decodeLabel delimiter)

variable {start : List UInt8} {r : Registers} {n : ℕ} {label : List Char} {output : List UInt8}
  {unique : List ℕ}

/-! ## Arithmetic in 32 bits -/

/-- An exact result that fits. -/
def Fits (x : ℤ) : Prop := 0 ≤ x ∧ x < 2 ^ 32

theorem fits_natCast (h : n < 4294967296) : Fits n := by
  constructor
  · exact Int.natCast_nonneg n
  · norm_num
    exact_mod_cast h

theorem u32_natCast (h : n < 4294967296) : u32 n = n := by
  rw [u32, Int.emod_eq_of_lt (fits_natCast h).1 (fits_natCast h).2, Int.toNat_natCast]

/-- The least bound on `delta` that is needed. -/
def deltaLimit : ℕ := 100000000

theorem shrink_eq (fuel delta k : ℕ) : shrink fuel delta k = Bootstring.shrink punycode fuel delta k := by
  induction fuel generalizing delta k with
  | zero => rfl
  | succ fuel ih =>
      rw [shrink, Bootstring.shrink, ih]
      rfl

theorem shrink_le (fuel delta k : ℕ) :
    (shrink fuel delta k).1 ≤ delta ∧ (shrink fuel delta k).2 ≤ k + 36 * fuel := by
  induction fuel generalizing delta k with
  | zero => exact ⟨le_refl _, le_refl _⟩
  | succ fuel ih =>
      rw [shrink]
      split_ifs
      · obtain ⟨h₁, h₂⟩ := ih (delta / 35) (k + 36)
        constructor
        · exact le_trans h₁ (Nat.div_le_self _ _)
        · omega
      · exact ⟨le_refl _, Nat.le_add_right _ _⟩

/-- `adapt` computes the bias of the specification. -/
theorem adapt_eq {delta : ℕ} (hdelta : delta ≤ deltaLimit) (points : ℕ) (first : Bool) :
    (adapt delta points first).1 = Bootstring.adapt punycode delta points first ∧
      ∀ x ∈ (adapt delta points first).2, Fits x := by
  rw [deltaLimit] at hdelta
  have hdamped : delta / (if first then 700 else 2) ≤ delta / 2 := by
    cases first
    · exact le_refl _
    · exact Nat.div_le_div_left (by norm_num) (by norm_num)
  generalize hd : delta / (if first then 700 else 2) = damped at hdamped
  have hpoints := Nat.div_le_self damped points
  have hsum : damped + damped / points ≤ delta := by omega
  generalize hs : damped + damped / points = sum at hsum
  obtain ⟨hle, hk⟩ := shrink_le sum sum 0
  generalize hshrink : shrink sum sum 0 = result at hle hk
  obtain ⟨rest, k⟩ := result
  dsimp only at hle hk
  have hquot : 36 * rest / (rest + 38) ≤ 36 := by
    apply Nat.div_le_of_le_mul
    rw [Nat.add_mul]
    omega
  have hcast : ((damped : ℤ) + damped / points) = (sum : ℕ) := by
    rw [← hs]
    push_cast
    rfl
  have hfirst : Bootstring.adapt punycode delta points first = k + 36 * rest / (rest + 38) := by
    have hd' : (if first then delta / punycode.damp else delta / 2) = damped := by
      rw [← hd]
      cases first <;> rfl
    simp only [Bootstring.adapt, hd', hs, ← shrink_eq, hshrink]
    rfl
  have hu : u32 ((sum : ℕ) : ℤ) = sum := u32_natCast (by omega)
  have ha : u32 (36 * (rest : ℤ)) = 36 * rest := by
    rw [← u32_natCast (n := 36 * rest) (by omega)]
    push_cast
    rfl
  have hb : u32 ((rest : ℤ) + 38) = rest + 38 := by
    rw [← u32_natCast (n := rest + 38) (by omega)]
    push_cast
    rfl
  have hbias : ((k : ℤ) + (36 * rest : ℕ) / (rest + 38 : ℕ)) = (k + 36 * rest / (rest + 38) : ℕ) := by
    push_cast
    rfl
  simp only [adapt, hd, hcast, hu, hshrink, ha, hb, hbias, hfirst]
  constructor
  · exact u32_natCast (by omega)
  · intro x hx
    simp only [List.mem_cons, List.not_mem_nil, or_false] at hx
    rcases hx with rfl | rfl | rfl | rfl
    · exact fits_natCast (by omega)
    · exact_mod_cast fits_natCast (n := 36 * rest) (by omega)
    · exact_mod_cast fits_natCast (n := rest + 38) (by omega)
    · exact fits_natCast (by omega)

/-! ## Integers -/

theorem threshold_eq (bias k : ℕ) :
    (if k ≤ bias then 1 else if bias + 26 ≤ k then 26 else k - bias) =
      threshold punycode bias k := by
  have ht : threshold punycode bias k = max 1 (min 26 (k - bias)) := rfl
  rw [ht]
  split_ifs <;> omega

theorem digitChar_eq {d : ℕ} (h : d < 36) : digitChar d = digitByte d := by
  rw [digitChar, digitByte]
  split_ifs
  · rw [Nat.add_comm]
  · congr 1
    omega

/-- The digits are written, or the output is filled up to its limit. -/
def Written (output : List UInt8) (digits : List ℕ) : Except (List UInt8) (List UInt8) → Prop
  | .ok out => out = output ++ digits.map digitByte ∧ out.length ≤ outputLimit
  | .error out => outputLimit < output.length + digits.length ∧ out.length = outputLimit

theorem written_last {q : ℕ} (hq : q < 36)
    (hout : output.length < outputLimit) : Written output [q] (.ok (output ++ [digitChar q])) := by
  constructor
  · rw [digitChar_eq hq]
    rfl
  · rw [List.length_append, List.length_singleton]
    exact hout

theorem written_cons {d : ℕ} {digits : List ℕ} (hd : d < 36)
    {result : Except (List UInt8) (List UInt8)}
    (h : Written (output ++ [digitChar d]) digits result) : Written output (d :: digits) result := by
  cases result with
  | ok out =>
      obtain ⟨rfl, hlen⟩ := h
      refine ⟨?_, hlen⟩
      rw [digitChar_eq hd, List.append_assoc]
      rfl
  | error out =>
      obtain ⟨hlong, hlen⟩ := h
      refine ⟨?_, hlen⟩
      rw [List.length_append, List.length_singleton] at hlong
      rw [List.length_cons]
      omega

theorem integerFrom_ne_nil (bias fuel k q : ℕ) : integerFrom punycode bias fuel k q ≠ [] := by
  cases fuel with
  | zero => exact List.cons_ne_nil _ _
  | succ fuel =>
      rw [integerFrom]
      split_ifs
      · exact List.cons_ne_nil _ _
      · exact List.cons_ne_nil _ _

theorem putInteger_spec (bias fuel : ℕ) {k q : ℕ} (hfuel : q ≤ fuel)
    (hout : output.length ≤ outputLimit) :
    Written output (integerFrom punycode bias fuel k q)
      (putInteger bias (fuel + 1) k q output) := by
  have ht := threshold_pos punycode bias k
  have hb : threshold punycode bias k < 36 := threshold_lt_base punycode bias k
  induction fuel generalizing k q output with
  | zero =>
      rw [putInteger, integerFrom, threshold_eq]
      by_cases hfull : outputLimit ≤ output.length
      · rw [if_pos hfull]
        exact ⟨Nat.lt_succ_of_le hfull, Nat.le_antisymm hout hfull⟩
      · rw [if_neg hfull]
        simp only
        rw [if_pos (by omega)]
        exact written_last (by omega) (Nat.not_le.1 hfull)
  | succ fuel ih =>
      by_cases hfull : outputLimit ≤ output.length
      · have hne := List.length_pos_of_ne_nil (integerFrom_ne_nil bias (fuel + 1) k q)
        rw [putInteger, if_pos hfull]
        exact ⟨by omega, Nat.le_antisymm hout hfull⟩
      · rw [putInteger, if_neg hfull, integerFrom, threshold_eq]
        simp only
        by_cases hlt : q < threshold punycode bias k
        · rw [if_pos hlt, if_pos hlt]
          exact written_last (by omega) (Nat.not_le.1 hfull)
        · have hbase : punycode.base = 36 := rfl
          rw [if_neg hlt, if_neg hlt, hbase]
          have hmod := Nat.mod_lt (q - threshold punycode bias k)
            (show 0 < 36 - threshold punycode bias k by omega)
          have hquot := quotient_lt 36 ht (Nat.not_lt.1 hlt)
          apply written_cons (show _ < 36 by omega)
          apply ih (by omega) _ (threshold_pos _ _ _) (threshold_lt_base _ _ _)
          rw [List.length_append, List.length_singleton]
          omega

/-! ## One round -/

/-- The registers hold what the encoder of the specification holds in the round of `m`. -/
structure Matches (start : List UInt8) (m : ℕ) (e : Encoder) (r : Registers) : Prop where
  n : r.n = m
  delta : r.delta = e.delta
  bias : r.bias = e.bias
  processed : r.processed = e.handled
  output : r.output = start ++ e.digits.map digitByte
  limit : r.output.length ≤ outputLimit
  exact : ∀ x ∈ r.exact, Fits x

/-- The registers follow the encoder, or the output is full and the encoding is longer. -/
def Outcome (start : List UInt8) (m : ℕ) (e : Encoder) : Except Registers Registers → Prop
  | .ok r => Matches start m e r
  | .error r =>
      outputLimit < start.length + e.digits.length ∧ r.output.length = outputLimit ∧
        ∀ x ∈ r.exact, Fits x

theorem digits_scan_isPrefix (basic m : ℕ) (e : Encoder) (c : ℕ) :
    e.digits <+: (e.scan punycode basic m c).digits := by
  rw [Encoder.scan]
  split_ifs
  · exact List.prefix_refl _
  · exact List.prefix_append _ _
  · exact List.prefix_refl _

theorem digits_foldl_isPrefix (basic m : ℕ) (input : List ℕ) (e : Encoder) :
    e.digits <+: (input.foldl (Encoder.scan punycode basic m) e).digits := by
  induction input generalizing e with
  | nil => exact List.prefix_refl _
  | cons c input ih => exact (digits_scan_isPrefix basic m e c).trans (ih _)

theorem digits_encodeFrom_isPrefix (input : List ℕ) (basic rounds n delta : ℕ) (e : Encoder) :
    e.digits <+: (encodeFrom punycode input basic rounds n { e with delta := delta }).digits := by
  induction rounds generalizing n delta e with
  | zero => exact List.prefix_refl _
  | succ rounds ih =>
      rw [encodeFrom]
      cases (input.filter (n ≤ ·)).min? with
      | none => exact List.prefix_refl _
      | some m =>
          have hround := digits_foldl_isPrefix basic m input
            { e with delta := delta + (m - n) * (e.handled + 1) }
          exact hround.trans (ih (m + 1) _ _)

theorem forall_fits_append {xs ys : List ℤ} (hx : ∀ x ∈ xs, Fits x) (hy : ∀ x ∈ ys, Fits x) :
    ∀ x ∈ xs ++ ys, Fits x := by
  intro x h
  rcases List.mem_append.1 h with h | h
  · exact hx x h
  · exact hy x h

theorem fits_succ (h : n ≤ deltaLimit) : Fits ((n : ℤ) + 1) := by
  rw [deltaLimit] at h
  exact_mod_cast fits_natCast (n := n + 1) (by omega)

theorem u32_succ (h : n ≤ deltaLimit) : u32 ((n : ℤ) + 1) = n + 1 := by
  rw [deltaLimit] at h
  exact_mod_cast u32_natCast (n := n + 1) (by omega)

theorem scan_spec (basic : ℕ) {m : ℕ} {e : Encoder}
    (h : Matches start m e r) (hdelta : e.delta ≤ deltaLimit) (hhandled : e.handled ≤ deltaLimit)
    (c : ℕ) : Outcome start m (e.scan punycode basic m c) (scan basic r c) := by
  rw [scan, Encoder.scan, h.n]
  by_cases hlt : c < m
  · rw [if_pos hlt, if_pos hlt, h.delta]
    simp only [u32_succ hdelta]
    rw [if_neg (Nat.succ_ne_zero _)]
    exact { h with
      n := rfl
      delta := rfl
      exact := forall_fits_append h.exact (by simpa using fits_succ hdelta) }
  · rw [if_neg hlt, if_neg hlt]
    by_cases heq : c = m
    · rw [if_pos heq, if_pos heq, h.bias, h.delta, h.processed]
      have hwritten := putInteger_spec e.bias e.delta (k := 36) (le_refl _) h.limit
      have hpoints : u32 ((e.handled : ℤ) + 1) = e.handled + 1 := u32_succ hhandled
      have hfirst : decide (basic = e.handled) = decide (e.handled = basic) :=
        decide_eq_decide.2 eq_comm
      cases hput : putInteger e.bias (e.delta + 1) 36 e.delta r.output with
      | error out =>
          rw [hput] at hwritten
          obtain ⟨hlong, hlen⟩ := hwritten
          refine ⟨?_, hlen, h.exact⟩
          rw [h.output, List.length_append, List.length_map] at hlong
          rw [List.length_append]
          exact (Nat.add_assoc _ _ _) ▸ hlong
      | ok out =>
          rw [hput] at hwritten
          obtain ⟨rfl, hlen⟩ := hwritten
          obtain ⟨hbias, hexact⟩ := adapt_eq hdelta (e.handled + 1) (e.handled = basic)
          simp only [hpoints, hfirst]
          exact {
            n := rfl
            delta := rfl
            bias := hbias
            processed := rfl
            output := by
              rw [h.output, List.append_assoc, ← List.map_append]
              rfl
            limit := hlen
            exact := forall_fits_append h.exact hexact }
    · rw [if_neg heq, if_neg heq]
      exact h

theorem Outcome.mono {m m' : ℕ} {e e' : Encoder}
    (h : Outcome start m e (.error r)) (hpre : e.digits <+: e'.digits) :
    Outcome start m' e' (.error r) := by
  obtain ⟨hlong, hlen, hexact⟩ := h
  have hle := hpre.length_le
  exact ⟨by omega, hlen, hexact⟩

variable {maxint m : ℕ} {input seen rest : List ℕ} {e : Encoder} {d : Decoder}

/-- The size of the code points and of the label, which bounds `delta`. -/
structure Small (maxint : ℕ) (input : List ℕ) : Prop where
  length : input.length ≤ 62
  codePoint : ∀ c ∈ input, c < 0x110000
  maxint : 36 * deltaLimit ≤ maxint

theorem Small.deltaBound_le (h : Small maxint input) (hm : m ∈ input) :
    deltaBound input m ≤ deltaLimit := by
  have hlength := h.length
  have hcode := h.codePoint m hm
  calc deltaBound input m ≤ 0x110000 * 63 := Nat.mul_le_mul (by omega) (by omega)
    _ ≤ deltaLimit := by
        rw [deltaLimit]
        norm_num

theorem Small.base_mul_le (h : Small maxint input) (hm : m ∈ input) :
    punycode.base * deltaBound input m ≤ maxint :=
  le_trans (Nat.mul_le_mul_left _ (h.deltaBound_le hm)) h.maxint

theorem delta_le (h : Follows punycode maxint input m seen rest e d)
    (hsmall : Small maxint input) (hm : m ∈ input) :
    e.delta < deltaLimit ∧ e.handled ≤ 62 := by
  have hpassed := h.passed_lt
  have hbound := hsmall.deltaBound_le hm
  have houtput := h.output_le
  have hhandled := h.handled
  have hlength := hsmall.length
  constructor <;> omega

theorem foldlM_scan
    (h : Follows punycode maxint input m seen rest e d) (hsmall : Small maxint input)
    (hm : m ∈ input) (hmatch : Matches start m e r) :
    Outcome start m (rest.foldl (Encoder.scan punycode (basics punycode input).length m) e)
      (rest.foldlM (scan (basics punycode input).length) r) := by
  induction rest generalizing seen e d r with
  | nil => exact hmatch
  | cons c rest ih =>
      obtain ⟨hdelta, hhandled⟩ := delta_le h hsmall hm
      have hlimit : e.handled ≤ deltaLimit := le_trans hhandled (by rw [deltaLimit]; norm_num)
      have hstep := scan_spec (basics punycode input).length hmatch (Nat.le_of_lt hdelta) hlimit c
      obtain ⟨d', h'⟩ := h.scan (hsmall.base_mul_le hm)
      rw [List.foldlM_cons, List.foldl_cons]
      cases hscan : scan (basics punycode input).length r c with
      | error r' =>
          rw [hscan] at hstep
          exact hstep.mono (digits_foldl_isPrefix _ _ _ _)
      | ok r' =>
          rw [hscan] at hstep
          exact ih h' hstep

/-! ## All rounds -/

theorem min?_filter_of_sorted (hsorted : (m :: unique).Pairwise (· < ·))
    (hmem : ∀ x, x ∈ m :: unique ↔ x ∈ input ∧ n ≤ x) :
    (input.filter (n ≤ ·)).min? = some m := by
  rw [List.min?_eq_some_iff]
  constructor
  · rw [List.mem_filter, decide_eq_true_eq]
    exact (hmem m).1 List.mem_cons_self
  · intro x hx
    rw [List.mem_filter, decide_eq_true_eq] at hx
    rcases List.mem_cons.1 ((hmem x).2 hx) with rfl | hx
    · exact le_refl _
    · exact Nat.le_of_lt (List.rel_of_pairwise_cons hsorted hx)

theorem mem_tail_iff (hsorted : (m :: unique).Pairwise (· < ·))
    (hmem : ∀ x, x ∈ m :: unique ↔ x ∈ input ∧ n ≤ x) (hn : n ≤ m) (x : ℕ) :
    x ∈ unique ↔ x ∈ input ∧ m + 1 ≤ x := by
  constructor
  · intro hx
    exact ⟨((hmem x).1 (List.mem_cons_of_mem _ hx)).1, List.rel_of_pairwise_cons hsorted hx⟩
  · rintro ⟨hx, hlt⟩
    rcases List.mem_cons.1 ((hmem x).2 ⟨hx, by omega⟩) with rfl | hx
    · omega
    · exact hx

theorem handled_eq (h : Follows punycode maxint input n [] input e d)
    (hnone : ∀ c ∈ input, c < n) : e.handled = input.length := by
  rw [h.handled, h.output_eq hnone]

theorem handled_lt (h : Follows punycode maxint input n [] input e d) (hm : m ∈ input)
    (hn : n ≤ m) : e.handled < input.length := by
  rw [h.handled, h.output, List.filter_nil, List.nil_append]
  apply Nat.lt_of_le_of_ne (List.length_filter_le _ _)
  intro heq
  rw [List.length_filter_eq_length_iff] at heq
  have hlt := heq m hm
  rw [decide_eq_true_eq] at hlt
  omega

theorem matches_raise (hmatch : Matches start n e r)
    (h : Follows punycode maxint input n [] input e d) (hsmall : Small maxint input)
    (hm : m ∈ input) (hn : n ≤ m) (hgap : ∀ c ∈ input, n ≤ c → m ≤ c) :
    Matches start m { e with delta := e.delta + (m - n) * (e.handled + 1) }
      { r with
        n := m
        delta := u32 (r.delta + u32 ((m : ℤ) - r.n) * (r.processed + 1))
        exact := r.exact ++
          [(m : ℤ) - r.n, r.delta + u32 ((m : ℤ) - r.n) * (r.processed + 1)] } := by
  have hdelta : e.delta + (m - n) * (e.handled + 1) < deltaLimit :=
    (delta_le (h.raise hn hgap) hsmall hm).1
  have hcode := hsmall.codePoint m hm
  rw [deltaLimit] at hdelta
  have hsub : (m : ℤ) - r.n = (m - n : ℕ) := by
    rw [hmatch.n, Int.ofNat_sub hn]
  have hu : u32 ((m - n : ℕ) : ℤ) = m - n := u32_natCast (by omega)
  have hsum : (r.delta : ℤ) + u32 ((m : ℤ) - r.n) * (r.processed + 1) =
      (e.delta + (m - n) * (e.handled + 1) : ℕ) := by
    rw [hsub, hu, hmatch.delta, hmatch.processed]
    push_cast
    ring
  rw [hsum, hsub]
  exact { hmatch with
    n := rfl
    delta := u32_natCast (by omega)
    exact := by
      apply forall_fits_append hmatch.exact
      intro x hx
      simp only [List.mem_cons, List.not_mem_nil, or_false] at hx
      rcases hx with rfl | rfl
      · exact fits_natCast (by omega)
      · exact fits_natCast (by omega) }

theorem matches_next (hmatch : Matches start m e r)
    (hdelta : e.delta ≤ deltaLimit) (hm : m ≤ deltaLimit) :
    Matches start (m + 1) { e with delta := e.delta + 1 }
      { r with
        n := u32 (r.n + 1)
        delta := u32 (r.delta + 1)
        exact := r.exact ++ [(r.n : ℤ) + 1, (r.delta : ℤ) + 1] } := by
  rw [hmatch.n, hmatch.delta]
  exact { hmatch with
    n := u32_succ hm
    delta := u32_succ hdelta
    exact := by
      apply forall_fits_append hmatch.exact
      intro x hx
      simp only [List.mem_cons, List.not_mem_nil, or_false] at hx
      rcases hx with rfl | rfl
      · exact fits_succ hm
      · exact fits_succ hdelta }

theorem encodeLoop_done {basic : ℕ} (values : List ℕ)
    (h : r.processed = input.length) : encodeLoop input basic values r = .ok r := by
  cases values with
  | nil => rfl
  | cons c values => rw [encodeLoop, if_neg (by omega)]

theorem encodeLoop_spec (stale : List ℕ) (rounds : ℕ)
    (h : Follows punycode maxint input n [] input e d)
    (hsmall : Small maxint input) (hmatch : Matches start n e r)
    (hsorted : unique.Pairwise (· < ·)) (hmem : ∀ x, x ∈ unique ↔ x ∈ input ∧ n ≤ x)
    (hrounds : (input.filter (n ≤ ·)).length ≤ rounds) :
    ∃ n', Outcome start n' (encodeFrom punycode input (basics punycode input).length rounds n e)
        (encodeLoop input (basics punycode input).length (unique ++ stale) r) ∧
      ∀ r', encodeLoop input (basics punycode input).length (unique ++ stale) r = .ok r' →
        r'.processed = input.length := by
  induction unique generalizing n e d r rounds with
  | nil =>
      have hnone : ∀ c ∈ input, c < n := by
        intro c hc
        by_contra hle
        exact List.not_mem_nil ((hmem c).2 ⟨hc, Nat.not_lt.1 hle⟩)
      have hempty : input.filter (n ≤ ·) = [] := by
        rw [List.filter_eq_nil_iff]
        intro c hc
        simpa using hnone c hc
      have hprocessed : r.processed = input.length := hmatch.processed.trans (handled_eq h hnone)
      have hencode : encodeFrom punycode input (basics punycode input).length rounds n e = e := by
        cases rounds with
        | zero => rfl
        | succ rounds => rw [encodeFrom, hempty, List.min?_nil]
      rw [List.nil_append, encodeLoop_done stale hprocessed, hencode]
      refine ⟨n, hmatch, ?_⟩
      intro r' hr'
      cases hr'
      exact hprocessed
  | cons m unique ih =>
      have hmin := min?_filter_of_sorted hsorted hmem
      obtain ⟨hm, hn, hgap⟩ := min?_filter_eq_some hmin
      cases rounds with
      | zero =>
          rw [List.length_eq_zero_iff.1 (Nat.le_zero.1 hrounds)] at hmin
          cases hmin
      | succ rounds =>
          have hlt : r.processed < input.length := hmatch.processed ▸ handled_lt h hm hn
          have hraised := h.raise hn hgap
          have hround := foldlM_scan hraised hsmall hm
            (matches_raise hmatch h hsmall hm hn hgap)
          obtain ⟨d', hfollows⟩ := hraised.round (hsmall.base_mul_le hm)
          rw [List.cons_append, encodeLoop, if_pos hlt, encodeFrom, hmin]
          simp only
          cases hfold : input.foldlM (scan (basics punycode input).length)
              { r with
                n := m
                delta := u32 (r.delta + u32 ((m : ℤ) - r.n) * (r.processed + 1))
                exact := r.exact ++
                  [(m : ℤ) - r.n, r.delta + u32 ((m : ℤ) - r.n) * (r.processed + 1)] } with
          | error r' =>
              rw [hfold] at hround
              refine ⟨m, hround.mono (digits_encodeFrom_isPrefix input _ rounds (m + 1) _ _), ?_⟩
              intro r'' hr''
              cases hr''
          | ok r' =>
              rw [hfold] at hround
              obtain ⟨hdelta, -⟩ := delta_le hfollows hsmall hm
              have hcode : m ≤ deltaLimit := by
                have hlt := hsmall.codePoint m hm
                rw [deltaLimit]
                omega
              have hshorter := length_filter_succ_lt hm hn
              exact ih rounds hfollows.next_round
                (matches_next hround (Nat.le_of_lt hdelta) hcode)
                (List.Pairwise.of_cons hsorted) (mem_tail_iff hsorted hmem hn) (by omega)

/-! ## Whole labels -/

theorem basics_codePoints (label : List Char) :
    (basics punycode (codePoints label)).map UInt8.ofNat =
      (asciiChars label).map (fun c => UInt8.ofNat c.toNat) := by
  rw [basics, codePoints, List.filter_map, List.map_map]
  rfl

theorem length_basics (label : List Char) :
    (basics punycode (codePoints label)).length = (asciiChars label).length := by
  have h := congrArg List.length (basics_codePoints label)
  rwa [List.length_map, List.length_map] at h

/-- What the output starts with. -/
def outputStart (label : List Char) : List UInt8 :=
  delimit (decodedTo [] label).output

theorem outputStart_append (label : List Char) :
    outputStart label ++ (encode punycode (codePoints label)).map digitByte =
      acePrefix ++ encodeLabel (codePoints label) := by
  rw [outputStart, encodeLabel, basics_codePoints, delimit, decodedTo]
  simp only
  cases hascii : (asciiChars label).map (fun c => UInt8.ofNat c.toNat) with
  | nil =>
      rw [List.append_nil, if_neg (Nat.lt_irrefl _), if_pos rfl]
      rfl
  | cons b basic =>
      rw [if_neg (List.cons_ne_nil _ _), if_pos]
      · simp only [List.append_assoc]
        rfl
      · rw [List.length_append]
        exact Nat.lt_add_of_pos_right (Nat.succ_pos _)

theorem length_outputStart_le (h : label.length ≤ 62) :
    (outputStart label).length ≤ outputLimit := by
  have hascii : (asciiChars label).length ≤ label.length := List.length_filter_le _ _
  have houtput : (decodedTo [] label).output.length ≤ acePrefix.length + label.length := by
    rw [decodedTo, List.length_append, List.length_map]
    exact Nat.add_le_add_left hascii _
  rw [outputStart, delimit, outputLimit]
  split_ifs
  · rw [List.length_append, List.length_singleton]
    omega
  · omega

theorem small_codePoints (h : label.length ≤ 62) :
    Small (2 ^ 32 - 1) (codePoints label) where
  length := by rwa [codePoints, List.length_map]
  codePoint := by
    intro c hc
    obtain ⟨x, -, rfl⟩ := List.mem_map.1 hc
    exact (toNat_lt x).1
  maxint := by
    rw [deltaLimit]
    norm_num

theorem mem_filter_nonBasic (input : List ℕ) (x : ℕ) :
    x ∈ input.filter (0x80 ≤ ·) ↔ x ∈ input ∧ 0x80 ≤ x := by
  rw [List.mem_filter, decide_eq_true_eq]

theorem encodeLoop_label (reads : List ℕ) (h : label.length ≤ 62) :
    ∃ n, Outcome (outputStart label) n
      (encodeFrom punycode (codePoints label) (basics punycode (codePoints label)).length
        (codePoints label).length 128 (Encoder.start punycode (codePoints label)))
      (encodeLoop (codePoints label) ((decodedTo reads label).output.length - acePrefix.length)
        (sortUniqueValues ((codePoints label).filter (0x80 ≤ ·)))
        (registers (decodedTo reads label))) := by
  obtain ⟨unique, stale, hsort, hsorted, hmem⟩ :=
    sortUniqueValues_spec ((codePoints label).filter (0x80 ≤ ·))
  have hbasic : (decodedTo reads label).output.length - acePrefix.length =
      (basics punycode (codePoints label)).length := by
    rw [length_basics, decodedTo, List.length_append, List.length_map, Nat.add_sub_cancel_left]
  have hmatch : Matches (outputStart label) 128 (Encoder.start punycode (codePoints label))
      (registers (decodedTo reads label)) :=
    { n := rfl
      delta := rfl
      bias := rfl
      processed := hbasic
      output := (List.append_nil _).symm
      limit := length_outputStart_le h
      exact := by simp [registers] }
  have hstart : Follows punycode (2 ^ 32 - 1) (codePoints label) 128 [] (codePoints label)
      (Encoder.start punycode (codePoints label))
      (Decoder.start punycode (basics punycode (codePoints label))) := Follows.start _ _
  obtain ⟨n, hrun, -⟩ := encodeLoop_spec stale (codePoints label).length hstart
    (small_codePoints h) hmatch hsorted
    (fun x => (hmem x).trans (mem_filter_nonBasic _ x)) (List.length_filter_le _ _)
  rw [hbasic, hsort]
  exact ⟨n, hrun⟩

/-- What the function does with a well-formed label that is not ASCII. -/
theorem utf8ToPunycode_utf8 {input : Input} (htext : input.text = utf8 label)
    (hlen : input.text.length ≤ 62) (hascii : ¬isAscii input.text) :
    (∀ i ∈ (utf8ToPunycode input).reads, i < input.text.length) ∧
      (∀ x ∈ (utf8ToPunycode input).exact, Fits x) ∧
      ((utf8ToPunycode input).value = -1 ∧ (utf8ToPunycode input).output.length = outputLimit ∧
          63 < (encodeLabel (codePoints label)).length ∨
        (utf8ToPunycode input).value = (utf8ToPunycode input).output.length ∧
          (utf8ToPunycode input).output = acePrefix ++ encodeLabel (codePoints label) ∧
          (utf8ToPunycode input).output.length ≤ outputLimit) := by
  have hlabel : label.length ≤ 62 := le_trans (length_le_utf8 label) (htext ▸ hlen)
  have hall : ¬(isAllAscii input).1 = true := isAllAscii_iff.not.2 hascii
  obtain ⟨n, hrun⟩ := encodeLoop_label (isAllAscii input).2 hlabel
  have hreads : ∀ i ∈ (decodedTo (isAllAscii input).2 label).reads, i < input.text.length := by
    intro i hi
    rcases List.mem_append.1 hi with hi | hi
    · exact isAllAscii_reads i hi
    · rw [htext]
      exact List.mem_range.1 hi
  have hstart := outputStart_append label
  have hlength := congrArg List.length hstart
  rw [List.length_append, List.length_append, List.length_map] at hlength
  cases hloop : encodeLoop (codePoints label)
      ((decodedTo (isAllAscii input).2 label).output.length - acePrefix.length)
      (sortUniqueValues ((codePoints label).filter (0x80 ≤ ·)))
      (registers (decodedTo (isAllAscii input).2 label)) with
  | error r =>
      have hpunycode : utf8ToPunycode input =
          { value := -1
            output := r.output
            reads := (decodedTo (isAllAscii input).2 label).reads
            exact := r.exact } := by
        rw [utf8ToPunycode]
        simp only [if_neg (Nat.not_lt.2 hlen), if_neg hall, decodeLoop_utf8 _ htext hlen]
        erw [hloop]
      rw [hpunycode]
      rw [hloop] at hrun
      obtain ⟨hlong, hfull, hexact⟩ := hrun
      refine ⟨hreads, hexact, .inl ⟨rfl, hfull, ?_⟩⟩
      have hdigits : (encodeFrom punycode (codePoints label)
          (basics punycode (codePoints label)).length (codePoints label).length 128
          (Encoder.start punycode (codePoints label))).digits =
            encode punycode (codePoints label) := rfl
      rw [hdigits] at hlong
      rw [outputLimit] at hlong
      omega
  | ok r =>
      have hpunycode : utf8ToPunycode input =
          { value := r.output.length
            output := r.output
            reads := (decodedTo (isAllAscii input).2 label).reads
            exact := r.exact } := by
        rw [utf8ToPunycode]
        simp only [if_neg (Nat.not_lt.2 hlen), if_neg hall, decodeLoop_utf8 _ htext hlen]
        erw [hloop]
      rw [hpunycode]
      rw [hloop] at hrun
      exact ⟨hreads, hrun.exact, .inr ⟨rfl, hrun.output.trans hstart, hrun.limit⟩⟩

/-- A label that is not ASCII is encoded as the specification says, unless the encoding is too
long, and none of the results on `delta` is reduced. -/
theorem utf8ToPunycode_eq_encodeLabel {input : Input} {label : List Char}
    (htext : input.text = utf8 label) (hlen : input.text.length ≤ 62)
    (hascii : ¬isAscii input.text) :
    ((utf8ToPunycode input).value = -1 ∧ 63 < (encodeLabel (codePoints label)).length ∨
        (utf8ToPunycode input).output = acePrefix ++ encodeLabel (codePoints label) ∧
          (utf8ToPunycode input).value = (utf8ToPunycode input).output.length) ∧
      decodeLabel (2 ^ 32 - 1) (encodeLabel (codePoints label)) = some (codePoints label) ∧
      ∀ x ∈ (utf8ToPunycode input).exact, 0 ≤ x ∧ x < 2 ^ 32 := by
  have hlabel : label.length ≤ 62 := le_trans (length_le_utf8 label) (htext ▸ hlen)
  have hsmall := small_codePoints hlabel
  obtain ⟨-, hexact, hresult⟩ := utf8ToPunycode_utf8 htext hlen hascii
  refine ⟨?_, ?_, hexact⟩
  · rcases hresult with ⟨hvalue, -, hlong⟩ | ⟨hvalue, houtput, -⟩
    · exact .inl ⟨hvalue, hlong⟩
    · exact .inr ⟨houtput, hvalue⟩
  · exact PunycodeRfc.decodeLabel_encodeLabel (fun c hc => hsmall.base_mul_le hc)

/-- The label `ü`. -/
theorem utf8ToPunycode_eq_encodeLabel_umlaut :
    ((utf8ToPunycode ⟨[0xC3, 0xBC], fun _ => 0⟩).value = -1 ∧
          63 < (encodeLabel (codePoints ['ü'])).length ∨
        (utf8ToPunycode ⟨[0xC3, 0xBC], fun _ => 0⟩).output =
            acePrefix ++ encodeLabel (codePoints ['ü']) ∧
          (utf8ToPunycode ⟨[0xC3, 0xBC], fun _ => 0⟩).value =
            (utf8ToPunycode ⟨[0xC3, 0xBC], fun _ => 0⟩).output.length) ∧
      decodeLabel (2 ^ 32 - 1) (encodeLabel (codePoints ['ü'])) = some (codePoints ['ü']) ∧
      ∀ x ∈ (utf8ToPunycode ⟨[0xC3, 0xBC], fun _ => 0⟩).exact, 0 ≤ x ∧ x < 2 ^ 32 :=
  utf8ToPunycode_eq_encodeLabel (by decide) (by decide) (by simp [isAscii])

end Webpp.Uri.Punycodes
