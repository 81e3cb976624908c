import Mathlib.Data.List.Basic
import Mathlib.Data.Nat.Basic
import Mathlib.Data.Option.Basic
import Mathlib.Tactic.Ring
import Mathlib.Tactic.Linarith

/-!
# Bootstring

The encoding of a list of code points by a list of digits. The code points below `initialN`
are kept as they are, each of the others is inserted by a state machine that counts through
all pairs of a code point and a place, and the digits say how many pairs are skipped. The
decoder refuses what does not fit below `maxint`. What is encoded is decoded again.
-/

namespace Bootstring

variable {input : List ℕ} {d : Decoder}

/-- The parameters of the encoding. -/
structure Parameters where
  base : ℕ
  tmin : ℕ
  tmax : ℕ
  skew : ℕ
  damp : ℕ
  initialBias : ℕ
  initialN : ℕ
  tmin_pos : 0 < tmin
  tmin_le_tmax : tmin ≤ tmax
  tmax_lt_base : tmax < base

variable (p : Parameters)

/-! ## Thresholds and bias -/

/-- `k - bias`, clamped to `tmin` and `tmax`. -/
def threshold (bias k : ℕ) : ℕ := max p.tmin (min p.tmax (k - bias))

theorem threshold_pos (bias k : ℕ) : 0 < threshold p bias k :=
  Nat.lt_of_lt_of_le p.tmin_pos (Nat.le_max_left _ _)

theorem threshold_lt_base (bias k : ℕ) : threshold p bias k < p.base := by
  rw [threshold]
  have h₁ := p.tmin_le_tmax
  have h₂ := p.tmax_lt_base
  omega

/-- While `delta` is large it is divided, at most `fuel` times. -/
def shrink : ℕ → ℕ → ℕ → ℕ × ℕ
  | 0, delta, k => (delta, k)
  | fuel + 1, delta, k =>
      if (p.base - p.tmin) * p.tmax / 2 < delta then
        shrink fuel (delta / (p.base - p.tmin)) (k + p.base)
      else (delta, k)

/-- The bias for the next delta. -/
def adapt (delta points : ℕ) (first : Bool) : ℕ :=
  let delta := if first then delta / p.damp else delta / 2
  let delta := delta + delta / points
  let (delta, k) := shrink p delta delta 0
  k + (p.base - p.tmin + 1) * delta / (delta + p.skew)

/-! ## The encoder -/

/-- The digits of `q` from the place `k`, where `fuel` is at least `q`. -/
def integerFrom (bias : ℕ) : ℕ → ℕ → ℕ → List ℕ
  | 0, _, q => [q]
  | fuel + 1, k, q =>
      let t := threshold p bias k
      if q < t then [q]
      else (t + (q - t) % (p.base - t)) :: integerFrom bias fuel (k + p.base) ((q - t) / (p.base - t))

/-- `delta` as a generalized variable-length integer. -/
def integer (bias delta : ℕ) : List ℕ := integerFrom p bias delta p.base delta

structure Encoder where
  delta : ℕ
  bias : ℕ
  handled : ℕ
  digits : List ℕ

/-- One code point of the input, while `m` is the code point to be inserted. -/
def Encoder.scan (basic m : ℕ) (e : Encoder) (c : ℕ) : Encoder :=
  if c < m then { e with delta := e.delta + 1 }
  else if c = m then
    { delta := 0
      bias := adapt p e.delta (e.handled + 1) (e.handled = basic)
      handled := e.handled + 1
      digits := e.digits ++ integer p e.bias e.delta }
  else e

/-- The next code point to be inserted is the least one in the input that is at least `n`. -/
def encodeFrom (input : List ℕ) (basic : ℕ) : ℕ → ℕ → Encoder → Encoder
  | 0, _, e => e
  | rounds + 1, n, e =>
      match (input.filter (n ≤ ·)).min? with
      | none => e
      | some m =>
          let e := input.foldl (Encoder.scan p basic m)
            { e with delta := e.delta + (m - n) * (e.handled + 1) }
          encodeFrom input basic rounds (m + 1) { e with delta := e.delta + 1 }

/-- The basic code points of the input. -/
def basics (input : List ℕ) : List ℕ := input.filter (· < p.initialN)

/-- The encoder before the first round. -/
def Encoder.start (input : List ℕ) : Encoder where
  delta := 0
  bias := p.initialBias
  handled := (basics p input).length
  digits := []

/-- The digits of the code points that are not basic. -/
def encode (input : List ℕ) : List ℕ :=
  (encodeFrom p input (basics p input).length input.length p.initialN
    (Encoder.start p input)).digits

/-! ## The decoder -/

structure Decoder where
  n : ℕ
  i : ℕ
  bias : ℕ
  /-- `i` before the integer that is being read. -/
  oldi : ℕ
  /-- The weight and the place of the next digit. -/
  w : ℕ
  k : ℕ
  output : List ℕ

/-- The integer has been read, and `i` is the number of the pair. -/
def Decoder.insert (d : Decoder) (i : ℕ) : Decoder :=
  let points := d.output.length + 1
  { n := d.n + i / points
    i := i % points + 1
    bias := adapt p (i - d.oldi) points (d.oldi = 0)
    oldi := i % points + 1
    w := 1
    k := p.base
    output := d.output.insertIdx (i % points) (d.n + i / points) }

/-- One digit is consumed. -/
def Decoder.step (maxint : ℕ) (d : Decoder) (digit : ℕ) : Option Decoder :=
  let i := d.i + digit * d.w
  let t := threshold p d.bias d.k
  if maxint < i then none
  else if digit < t then
    if maxint < d.n + i / (d.output.length + 1) then none
    else some (d.insert p i)
  else if maxint < d.w * (p.base - t) then none
  else some { d with i := i, w := d.w * (p.base - t), k := d.k + p.base }

def Decoder.start (basic : List ℕ) : Decoder where
  n := p.initialN
  i := 0
  bias := p.initialBias
  oldi := 0
  w := 1
  k := p.base
  output := basic

/-- The digits must not end inside an integer. -/
def Decoder.finish (d : Decoder) : Option (List ℕ) := if d.k = p.base then some d.output else none

def decode (maxint : ℕ) (basic digits : List ℕ) : Option (List ℕ) :=
  (digits.foldlM (Decoder.step p maxint) (Decoder.start p basic)).bind (Decoder.finish p)

/-! ## Integers are read back -/

variable {p}

/-- The quotient carries what the digit leaves of `q`. -/
theorem digit_add_quotient {t q : ℕ} (base w : ℕ) (htq : t ≤ q) :
    (t + (q - t) % (base - t)) * w + (q - t) / (base - t) * (w * (base - t)) = q * w := by
  have hdiv := Nat.mod_add_div (q - t) (base - t)
  calc (t + (q - t) % (base - t)) * w + (q - t) / (base - t) * (w * (base - t))
      = (t + ((q - t) % (base - t) + (base - t) * ((q - t) / (base - t)))) * w := by ring
    _ = q * w := by rw [hdiv, Nat.add_sub_cancel' htq]

theorem quotient_lt {t q : ℕ} (base : ℕ) (ht : 0 < t) (htq : t ≤ q) :
    (q - t) / (base - t) < q := by
  have := Nat.div_le_self (q - t) (base - t)
  omega

theorem foldlM_last {maxint q : ℕ} (hlt : q < threshold p d.bias d.k) (hi : d.i + q * d.w ≤ maxint)
    (hn : d.n + (d.i + q * d.w) / (d.output.length + 1) ≤ maxint) :
    [q].foldlM (Decoder.step p maxint) d = some (d.insert p (d.i + q * d.w)) := by
  rw [List.foldlM_cons, Decoder.step, if_neg (by omega), if_pos hlt, if_neg (by omega)]
  rfl

theorem step_more {maxint digit : ℕ} (hle : threshold p d.bias d.k ≤ digit)
    (hi : d.i + digit * d.w ≤ maxint) (hw : d.w * (p.base - threshold p d.bias d.k) ≤ maxint) :
    Decoder.step p maxint d digit =
      some { d with
        i := d.i + digit * d.w
        w := d.w * (p.base - threshold p d.bias d.k)
        k := d.k + p.base } := by
  rw [Decoder.step, if_neg (by omega), if_neg (by omega), if_neg (by omega)]

/-- The digits of `q` add `q * w` to the number that is read. -/
theorem foldlM_integerFrom (maxint fuel : ℕ) {q : ℕ} (hfuel : q ≤ fuel)
    (hi : d.i + q * d.w ≤ maxint) (hn : d.n + (d.i + q * d.w) / (d.output.length + 1) ≤ maxint)
    (hw : p.base * (q * d.w) ≤ maxint) :
    (integerFrom p d.bias fuel d.k q).foldlM (Decoder.step p maxint) d =
      some (d.insert p (d.i + q * d.w)) := by
  have ht := threshold_pos p d.bias d.k
  induction fuel generalizing q d with
  | zero => exact foldlM_last (by omega) hi hn
  | succ fuel ih =>
      rw [integerFrom]
      by_cases hlt : q < threshold p d.bias d.k
      · rw [if_pos hlt]
        exact foldlM_last hlt hi hn
      · rw [if_neg hlt]
        have htq : threshold p d.bias d.k ≤ q := by omega
        have hsum := digit_add_quotient p.base d.w htq
        have hquot := quotient_lt p.base ht htq
        have hweight : d.w * (p.base - threshold p d.bias d.k) ≤ p.base * (q * d.w) := by
          rw [Nat.mul_comm d.w]
          apply Nat.mul_le_mul (Nat.sub_le _ _)
          exact Nat.le_mul_of_pos_left _ (by omega)
        rw [List.foldlM_cons, step_more (by omega) (by omega) (by omega), Option.bind_eq_bind,
          Option.bind_some]
        have hread := ih (q := (q - threshold p d.bias d.k) / (p.base - threshold p d.bias d.k))
          (d := { d with
            i := d.i + (threshold p d.bias d.k +
              (q - threshold p d.bias d.k) % (p.base - threshold p d.bias d.k)) * d.w
            w := d.w * (p.base - threshold p d.bias d.k)
            k := d.k + p.base })
          (by omega) (by rw [Nat.add_assoc, hsum]; exact hi)
          (by rw [Nat.add_assoc, hsum]; exact hn)
          (le_trans (Nat.mul_le_mul_left _ (le_of_le_of_eq (Nat.le_add_left _ _) hsum)) hw)
          (threshold_pos _ _ _)
        rw [hread, Decoder.insert, Decoder.insert, Nat.add_assoc, hsum]

/-! ## The decoder follows the encoder -/

theorem insertIdx_append (xs ys : List ℕ) (c : ℕ) :
    (xs ++ ys).insertIdx xs.length c = xs ++ c :: ys := by
  induction xs with
  | nil => rfl
  | cons x xs ih => rw [List.cons_append, List.length_cons, List.insertIdx_succ_cons, ih,
      List.cons_append]

theorem filter_seen_of_le {c m : ℕ} (seen : List ℕ) (hc : c ≤ m) :
    (seen ++ [c]).filter (· ≤ m) = seen.filter (· ≤ m) ++ [c] := by
  rw [List.filter_append, List.filter_cons_of_pos (by simpa), List.filter_nil]

theorem filter_seen_of_gt {c m : ℕ} (seen : List ℕ) (hc : m < c) :
    (seen ++ [c]).filter (· ≤ m) = seen.filter (· ≤ m) := by
  rw [List.filter_append, List.filter_cons_of_neg (by simpa), List.filter_nil, List.append_nil]

variable (p) in
/-- The encoder has scanned `seen` in the round of `m`, and the decoder has read its digits:
the pairs that the decoder passed and the ones that `delta` counts make up the pairs before the
code point that is scanned next. -/
structure Follows (maxint : ℕ) (input : List ℕ) (m : ℕ) (seen rest : List ℕ) (e : Encoder)
    (d : Decoder) : Prop where
  input_eq : seen ++ rest = input
  reads : e.digits.foldlM (Decoder.step p maxint) (Decoder.start p (basics p input)) = some d
  output : d.output = seen.filter (· ≤ m) ++ rest.filter (· < m)
  passed : d.i + e.delta =
    (m - d.n) * (d.output.length + 1) + (seen.filter (· ≤ m)).length
  n_le : d.n ≤ m
  oldi : d.oldi = d.i
  w : d.w = 1
  k : d.k = p.base
  bias : d.bias = e.bias
  handled : e.handled = d.output.length
  first : d.i = 0 ↔ e.handled = (basics p input).length
  basic_le : (basics p input).length ≤ e.handled

/-- A bound on `delta`, for code points and inputs of a bounded size. -/
def deltaBound (input : List ℕ) (m : ℕ) : ℕ := (m + 1) * (input.length + 1)

namespace Follows

variable {maxint m : ℕ} {input seen rest : List ℕ} {e : Encoder} {d : Decoder}

theorem output_le (h : Follows p maxint input m seen rest e d) :
    d.output.length ≤ input.length := by
  rw [h.output, ← h.input_eq, List.length_append, List.length_append]
  exact Nat.add_le_add (List.length_filter_le _ _) (List.length_filter_le _ _)

theorem seen_le (h : Follows p maxint input m seen rest e d) :
    (seen.filter (· ≤ m)).length ≤ d.output.length := by
  rw [h.output, List.length_append]
  exact Nat.le_add_right _ _

theorem passed_lt (h : Follows p maxint input m seen rest e d) :
    d.i + e.delta < deltaBound input m := by
  rw [h.passed, deltaBound]
  have h₁ := h.output_le
  have h₂ := h.seen_le
  calc (m - d.n) * (d.output.length + 1) + (seen.filter (· ≤ m)).length
      < (m - d.n + 1) * (d.output.length + 1) := by rw [Nat.add_mul]; omega
    _ ≤ (m + 1) * (input.length + 1) := Nat.mul_le_mul (by omega) (by omega)

theorem div_passed (h : Follows p maxint input m seen rest e d) :
    (d.i + e.delta) / (d.output.length + 1) = m - d.n := by
  rw [h.passed, Nat.mul_comm, Nat.mul_add_div (Nat.succ_pos _),
    Nat.div_eq_of_lt (Nat.lt_succ_of_le h.seen_le), Nat.add_zero]

theorem mod_passed (h : Follows p maxint input m seen rest e d) :
    (d.i + e.delta) % (d.output.length + 1) = (seen.filter (· ≤ m)).length := by
  rw [h.passed, Nat.mul_comm, Nat.mul_add_mod, Nat.mod_eq_of_lt (Nat.lt_succ_of_le h.seen_le)]

theorem start (maxint : ℕ) (input : List ℕ) :
    Follows p maxint input p.initialN [] input (Encoder.start p input)
      (Decoder.start p (basics p input)) where
  input_eq := rfl
  reads := rfl
  output := rfl
  passed := by simp [Decoder.start, Encoder.start]
  n_le := le_refl _
  oldi := rfl
  w := rfl
  k := rfl
  bias := rfl
  handled := rfl
  first := by simp [Decoder.start, Encoder.start]
  basic_le := le_refl _

/-- No code point lies between `n` and the next one. -/
theorem raise {n : ℕ} (h : Follows p maxint input n [] input e d) (hnm : n ≤ m)
    (hgap : ∀ c ∈ input, n ≤ c → m ≤ c) :
    Follows p maxint input m [] input { e with delta := e.delta + (m - n) * (e.handled + 1) } d :=
  { h with
    output := by
      rw [h.output]
      apply congrArg
      apply List.filter_congr
      intro c hc
      have := hgap c hc
      simp only [decide_eq_decide]
      omega
    passed := by
      have hsplit : m - d.n = (n - d.n) + (m - n) := by
        have := h.n_le
        omega
      have hpassed := h.passed
      simp only [List.filter_nil, List.length_nil, Nat.add_zero] at hpassed ⊢
      rw [← Nat.add_assoc, hpassed, h.handled, hsplit, Nat.add_mul]
    n_le := le_trans h.n_le hnm }

/-- The whole input has been scanned. -/
theorem next_round (h : Follows p maxint input m input [] e d) :
    Follows p maxint input (m + 1) [] input { e with delta := e.delta + 1 } d :=
  have houtput : d.output = input.filter (· < m + 1) := by
    rw [h.output, List.filter_nil, List.append_nil]
    apply List.filter_congr
    intro c _
    simp only [decide_eq_decide]
    omega
  { h with
    input_eq := rfl
    output := houtput
    passed := by
      have hpassed := h.passed
      have hlen : (input.filter (· ≤ m)).length = d.output.length := by
        rw [h.output, List.filter_nil, List.append_nil]
      have hsplit : m + 1 - d.n = (m - d.n) + 1 := Nat.succ_sub h.n_le
      rw [← Nat.add_assoc, hpassed, hlen, hsplit, Nat.add_mul]
      simp
      omega
    n_le := Nat.le_succ_of_le h.n_le }

theorem scan_smaller {c : ℕ} (h : Follows p maxint input m seen (c :: rest) e d) (hc : c < m) :
    Follows p maxint input m (seen ++ [c]) rest { e with delta := e.delta + 1 } d :=
  { h with
    input_eq := by
      rw [List.append_assoc]
      exact h.input_eq
    output := by
      rw [h.output, filter_seen_of_le seen (Nat.le_of_lt hc), List.append_assoc,
        List.filter_cons_of_pos (by simpa), List.singleton_append]
    passed := by
      rw [← Nat.add_assoc, h.passed, filter_seen_of_le seen (Nat.le_of_lt hc), List.length_append]
      rfl }

theorem scan_larger {c : ℕ} (h : Follows p maxint input m seen (c :: rest) e d) (hc : m < c) :
    Follows p maxint input m (seen ++ [c]) rest e d :=
  { h with
    input_eq := by
      rw [List.append_assoc]
      exact h.input_eq
    output := by
      rw [h.output, filter_seen_of_gt seen hc, List.filter_cons_of_neg (by simp; omega)]
    passed := by rw [h.passed, filter_seen_of_gt seen hc] }

theorem reads_integer (h : Follows p maxint input m seen rest e d)
    (hmax : p.base * deltaBound input m ≤ maxint) :
    (integer p e.bias e.delta).foldlM (Decoder.step p maxint) d =
      some (d.insert p (d.i + e.delta)) := by
  have hbase : 0 < p.base := Nat.lt_of_le_of_lt (Nat.zero_le _) p.tmax_lt_base
  have hbound : deltaBound input m ≤ p.base * deltaBound input m := Nat.le_mul_of_pos_left _ hbase
  have hm : m < deltaBound input m := by
    rw [deltaBound, Nat.mul_succ]
    omega
  have hlt := h.passed_lt
  have hread := foldlM_integerFrom (p := p) maxint e.delta (q := e.delta) (d := d) (le_refl _)
  rw [h.w, Nat.mul_one, h.bias, h.k, h.div_passed] at hread
  apply hread
  · omega
  · have := h.n_le
    omega
  · exact le_trans (Nat.mul_le_mul_left _ (by omega)) hmax

theorem scan_equal (h : Follows p maxint input m seen (m :: rest) e d)
    (hmax : p.base * deltaBound input m ≤ maxint) :
    Follows p maxint input m (seen ++ [m]) rest
      { delta := 0
        bias := adapt p e.delta (e.handled + 1) (e.handled = (basics p input).length)
        handled := e.handled + 1
        digits := e.digits ++ integer p e.bias e.delta }
      (d.insert p (d.i + e.delta)) := by
  have hn : d.n + (m - d.n) = m := Nat.add_sub_cancel' h.n_le
  have hseen := filter_seen_of_le seen (le_refl m)
  have hinserted : d.insert p (d.i + e.delta) =
      { n := m
        i := (seen.filter (· ≤ m)).length + 1
        bias := adapt p e.delta (d.output.length + 1) (d.i = 0)
        oldi := (seen.filter (· ≤ m)).length + 1
        w := 1
        k := p.base
        output := seen.filter (· ≤ m) ++ m :: rest.filter (· < m) } := by
    simp only [Decoder.insert]
    rw [h.mod_passed, h.div_passed, hn, h.oldi, Nat.add_sub_cancel_left, h.output,
      List.filter_cons_of_neg (by simp), insertIdx_append]
  rw [hinserted]
  constructor
  · rw [List.append_assoc]
    exact h.input_eq
  · rw [List.foldlM_append, h.reads, ← hinserted]
    exact h.reads_integer hmax
  · rw [hseen, List.append_assoc]
    rfl
  · rw [hseen, Nat.sub_self, Nat.zero_mul, List.length_append]
    simp
  · exact le_refl m
  · rfl
  · rfl
  · rfl
  · have hfirst : decide (d.i = 0) = decide (e.handled = (basics p input).length) :=
      decide_eq_decide.2 h.first
    simp only [hfirst, h.handled]
  · simp only [h.handled, h.output]
    rw [List.filter_cons_of_neg (by simp), List.length_append, List.length_append,
      List.length_cons, Nat.add_assoc]
  · have := h.basic_le
    simp only [Nat.add_eq_zero_iff, one_ne_zero, and_false, false_iff]
    omega
  · exact Nat.le_succ_of_le h.basic_le

/-- One code point of the input. -/
theorem scan {c : ℕ} (h : Follows p maxint input m seen (c :: rest) e d)
    (hmax : p.base * deltaBound input m ≤ maxint) :
    ∃ d', Follows p maxint input m (seen ++ [c]) rest
      (e.scan p (basics p input).length m c) d' := by
  rw [Encoder.scan]
  rcases Nat.lt_trichotomy c m with hc | rfl | hc
  · rw [if_pos hc]
    exact ⟨d, h.scan_smaller hc⟩
  · rw [if_neg (Nat.lt_irrefl c), if_pos rfl]
    exact ⟨_, h.scan_equal hmax⟩
  · rw [if_neg (Nat.lt_asymm hc), if_neg (Nat.ne_of_gt hc)]
    exact ⟨d, h.scan_larger hc⟩

/-- A whole round. -/
theorem round (h : Follows p maxint input m seen rest e d)
    (hmax : p.base * deltaBound input m ≤ maxint) :
    ∃ d', Follows p maxint input m input []
      (rest.foldl (Encoder.scan p (basics p input).length m) e) d' := by
  induction rest generalizing seen e d with
  | nil =>
      have hseen : seen = input := by rw [← h.input_eq, List.append_nil]
      rw [hseen] at h
      exact ⟨d, h⟩
  | cons c rest ih =>
      obtain ⟨d', h'⟩ := h.scan hmax
      exact ih h'

/-- All code points have been inserted. -/
theorem output_eq {n : ℕ} (h : Follows p maxint input n [] input e d)
    (hnone : ∀ c ∈ input, c < n) : d.output = input := by
  rw [h.output, List.filter_nil, List.nil_append, List.filter_eq_self]
  intro c hc
  simpa using hnone c hc

end Follows

/-! ## What is encoded is decoded -/

theorem min?_filter_eq_some {n m : ℕ} (h : (input.filter (n ≤ ·)).min? = some m) :
    m ∈ input ∧ n ≤ m ∧ ∀ c ∈ input, n ≤ c → m ≤ c := by
  rw [List.min?_eq_some_iff] at h
  obtain ⟨hmem, hle⟩ := h
  rw [List.mem_filter, decide_eq_true_eq] at hmem
  refine ⟨hmem.1, hmem.2, ?_⟩
  intro c hc hn
  apply hle
  rw [List.mem_filter]
  exact ⟨hc, by simpa using hn⟩

theorem min?_filter_eq_none {n : ℕ} (h : (input.filter (n ≤ ·)).min? = none) : ∀ c ∈ input, c < n := by
  rw [List.min?_eq_none_iff, List.filter_eq_nil_iff] at h
  intro c hc
  have := h c hc
  simp only [decide_eq_true_eq] at this
  omega

/-- Each round inserts at least one code point. -/
theorem length_filter_succ_lt {n m : ℕ} (hm : m ∈ input) (hn : n ≤ m) :
    (input.filter (m + 1 ≤ ·)).length < (input.filter (n ≤ ·)).length := by
  have hsub : (input.filter (m + 1 ≤ ·)).Sublist (input.filter (n ≤ ·)) := by
    apply List.monotone_filter_right
    intro c hc
    simp only [decide_eq_true_eq] at hc ⊢
    omega
  apply Nat.lt_of_le_of_ne hsub.length_le
  intro heq
  have hmem : m ∈ input.filter (m + 1 ≤ ·) := by
    rw [hsub.eq_of_length heq, List.mem_filter]
    exact ⟨hm, by simpa using hn⟩
  simp at hmem

/-- A run of rounds inserts everything. -/
theorem Follows.run {maxint : ℕ} (rounds : ℕ) {n : ℕ} {e : Encoder}
    (h : Follows p maxint input n [] input e d)
    (hmax : ∀ c ∈ input, p.base * deltaBound input c ≤ maxint)
    (hrounds : (input.filter (n ≤ ·)).length ≤ rounds) :
    ∃ n' d', Follows p maxint input n' [] input
      (encodeFrom p input (basics p input).length rounds n e) d' ∧ ∀ c ∈ input, c < n' := by
  induction rounds generalizing n e d with
  | zero =>
      refine ⟨n, d, h, min?_filter_eq_none ?_⟩
      rw [List.length_eq_zero_iff.1 (Nat.le_zero.1 hrounds)]
      rfl
  | succ rounds ih =>
      rw [encodeFrom]
      cases hmin : (input.filter (n ≤ ·)).min? with
      | none => exact ⟨n, d, h, min?_filter_eq_none hmin⟩
      | some m =>
          obtain ⟨hmem, hnm, hgap⟩ := min?_filter_eq_some hmin
          obtain ⟨d', h'⟩ := (h.raise hnm hgap).round (hmax m hmem)
          apply ih h'.next_round
          have := length_filter_succ_lt hmem hnm
          omega

/-- The decoder gives back the input from its basic code points and its digits. -/
theorem decode_encode {maxint : ℕ} (hmax : ∀ c ∈ input, p.base * deltaBound input c ≤ maxint) :
    decode p maxint (basics p input) (encode p input) = some input := by
  obtain ⟨n, d, h, hlt⟩ :=
    (Follows.start maxint input).run input.length hmax (List.length_filter_le _ _)
  rw [decode, encode, h.reads, Option.bind_some, Decoder.finish, if_pos h.k, h.output_eq hlt]

end Bootstring
