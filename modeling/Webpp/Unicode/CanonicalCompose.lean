import Webpp.Foundation.Loop
import Webpp.Unicode.Normalization

/-!
# `canonical_compose`

The specification takes the code points one after the other. Each one is composed with the last
starter before it, unless another code point in between blocks it. The function does so in one pass
in the memory of the sequence: what is composed is written to the begin, while the rest is read
behind it, and the last starter is only written at the end of its run.
-/

namespace Webpp.Unicode

open Loop

/-! ## The specification -/

section Specification

variable (composed : ℕ → ℕ → ℕ) (cccOf : ℕ → ℕ)

/-- A code point is blocked from a starter by a code point in between. -/
def Blocked (between : List ℕ) (c : ℕ) : Prop := ∃ b ∈ between, cccOf b = 0 ∨ cccOf c ≤ cccOf b

instance (between : List ℕ) (c : ℕ) : Decidable (Blocked cccOf between c) :=
  inferInstanceAs (Decidable (∃ b ∈ between, _))

/-- `c` is composed with the last starter of `l`, or it is appended. -/
def composeNext (l : List ℕ) (c : ℕ) : List ℕ :=
  let between := (l.reverse.takeWhile (fun b => cccOf b != 0)).reverse
  match l.reverse.dropWhile (fun b => cccOf b != 0) with
  | [] => l ++ [c]
  | starter :: before =>
      if ¬ Blocked cccOf between c ∧ composed starter c ≠ replacementChar then
        before.reverse ++ composed starter c :: between
      else l ++ [c]

/-- The canonical composition algorithm -/
def canonicalComposition (l : List ℕ) : List ℕ := l.foldl (composeNext composed cccOf) []

/-- No code point that is no starter has a smaller class than the one before it. -/
def CanonicallyOrdered (l : List ℕ) : Prop :=
  l.IsChain (fun a b => cccOf b = 0 ∨ cccOf a ≤ cccOf b)

instance (l : List ℕ) : Decidable (CanonicallyOrdered cccOf l) :=
  inferInstanceAs (Decidable (l.IsChain _))

end Specification

/-! ## The function -/

/-- Why there is no result. -/
inductive ComposeFault where
  | outside
  | exhausted
  deriving DecidableEq

/-- The memory, the pins as positions in it, the variables, and all values that have been read with
their positions. -/
structure Composing where
  mem : List ℕ
  cp1Pin : ℕ
  repPin : ℕ
  starterPin : ℕ
  cp2Pin : ℕ
  cp1 : ℕ
  prevCcc : ℤ
  reads : List (ℕ × ℕ)

namespace Composing

/-- `*pin` -/
def read (s : Composing) (pos : ℕ) : Except ComposeFault (ℕ × Composing) :=
  match s.mem[pos]? with
  | some v => .ok (v, { s with reads := s.reads ++ [(pos, v)] })
  | none => .error .outside

/-- `pin.set(code_point)` -/
def write (s : Composing) (pos v : ℕ) : Except ComposeFault Composing :=
  if pos < s.mem.length then .ok { s with mem := s.mem.set pos v } else .error .outside

/-- `pin.set(other_pin)` -/
def set (s : Composing) (pos other : ℕ) : Except ComposeFault Composing :=
  s.read other >>= fun r => r.2.write pos r.1

end Composing

section Function

variable (composed : ℕ → ℕ → ℕ) (cccOf : ℕ → ℕ)

/-- A round of the inner loop of `canonical_compose` -/
def composeRun (s : Composing) : Except ComposeFault (Flow Composing Composing) :=
  if s.cp2Pin = s.mem.length then .ok (.done s)
  else
    s.read s.cp2Pin >>= fun r =>
      let s := r.2
      let ccc := cccOf r.1
      let replacedCp := composed s.cp1 r.1
      if s.prevCcc < ccc ∧ replacedCp ≠ replacementChar then
        .ok (.next
          { s with cp1 := replacedCp, cp1Pin := s.cp1Pin + 1, cp2Pin := s.cp2Pin + 1 })
      else if ccc = 0 then .ok (.done s)
      else
        s.set (s.repPin + 1) s.cp2Pin >>= fun s =>
          .ok (.next
            { s with
              prevCcc := ccc
              repPin := s.repPin + 1
              cp1Pin := s.cp1Pin + 1
              cp2Pin := s.cp2Pin + 1 })

/-- A round of the outer loop of `canonical_compose` -/
def composeRound (s : Composing) : Except ComposeFault (Flow Composing Composing) :=
  if s.cp1Pin = s.mem.length then .ok (.done s)
  else
    { s with starterPin := s.repPin }.set s.repPin s.cp1Pin >>= fun s =>
      { s with cp2Pin := s.cp1Pin + 1 }.read s.cp1Pin >>= fun r =>
        loop (composeRun composed cccOf) .exhausted (r.2.mem.length + 1)
            { r.2 with cp1 := r.1, prevCcc := -1 } >>= fun s =>
          s.write s.starterPin s.cp1 >>= fun s =>
            .ok (.next { s with cp1Pin := s.cp1Pin + 1, repPin := s.repPin + 1 })

/-- `canonical_compose`, whose result is the position of the write pin -/
def canonicalCompose (mem : List ℕ) : Except ComposeFault Composing :=
  loop (composeRound composed cccOf) .exhausted (mem.length + 1) ⟨mem, 0, 0, 0, 0, 0, -1, []⟩

end Function

/-! ## One code point of the specification -/

section Next

variable {composed : ℕ → ℕ → ℕ} {cccOf : ℕ → ℕ} {before between : List ℕ} {starter : ℕ}

theorem not_blocked_iff (hbetween : ∀ b ∈ between, cccOf b ≠ 0) (c : ℕ) :
    ¬ Blocked cccOf between c ↔ ∀ b ∈ between, cccOf b < cccOf c := by
  rw [Blocked]
  push Not
  apply forall₂_congr
  intro b hb
  rw [and_iff_right (hbetween b hb)]

theorem composeNext_of_starter (hstarter : cccOf starter = 0)
    (hbetween : ∀ b ∈ between, cccOf b ≠ 0) (c : ℕ) :
    composeNext composed cccOf (before ++ starter :: between) c =
      if (∀ b ∈ between, cccOf b < cccOf c) ∧ composed starter c ≠ replacementChar then
        before ++ composed starter c :: between
      else before ++ starter :: (between ++ [c]) := by
  have hreverse : (before ++ starter :: between).reverse =
      between.reverse ++ starter :: before.reverse := by simp
  have hpos : ∀ b ∈ between.reverse, (cccOf b != 0) = true := by
    intro b hb
    exact bne_iff_ne.2 (hbetween b (List.mem_reverse.1 hb))
  have htake : (before ++ starter :: between).reverse.takeWhile (fun b => cccOf b != 0) =
      between.reverse := by
    rw [hreverse, List.takeWhile_append_of_pos hpos, List.takeWhile_cons]
    simp [hstarter]
  have hdrop : (before ++ starter :: between).reverse.dropWhile (fun b => cccOf b != 0) =
      starter :: before.reverse := by
    rw [hreverse, List.dropWhile_append_of_pos hpos, List.dropWhile_cons]
    simp [hstarter]
  rw [composeNext, htake, hdrop, List.reverse_reverse]
  dsimp only
  simp only [not_blocked_iff hbetween, List.reverse_reverse, List.append_assoc, List.cons_append]

theorem canonicalComposition_concat (l : List ℕ) (c : ℕ) :
    canonicalComposition composed cccOf (l ++ [c]) =
      composeNext composed cccOf (canonicalComposition composed cccOf l) c := by
  rw [canonicalComposition, List.foldl_append]
  rfl

end Next

/-! ## Memory -/

theorem exists_overwritten (junk : List ℕ) (c : ℕ) :
    ∃ j junk' x, junk ++ [c] = j :: junk' ∧ junk'.length = junk.length ∧ c :: junk' = x ++ [c] ∧
      x.length = junk.length := by
  cases junk with
  | nil => exact ⟨c, [], [], rfl, rfl, rfl, rfl⟩
  | cons a junk => exact ⟨a, junk ++ [c], c :: junk, rfl, by simp, rfl, rfl⟩

theorem overwritten_append {junk junk' : List ℕ} {j c : ℕ} (h : junk ++ [c] = j :: junk')
    (rest : List ℕ) : junk ++ c :: rest = j :: (junk' ++ rest) := by
  rw [← List.cons_append, ← h, List.append_assoc]
  rfl

theorem getElem?_append_length (pre : List ℕ) (c : ℕ) (rest : List ℕ) :
    (pre ++ c :: rest)[pre.length]? = some c := by
  rw [List.getElem?_append_right (Nat.le_refl _), Nat.sub_self]
  rfl

namespace Composing

variable {s : Composing} {a b : List ℕ} {pos : ℕ}

theorem read_eq {v : ℕ} (hmem : s.mem = a ++ v :: b) (hpos : pos = a.length) :
    s.read pos = .ok (v, { s with reads := s.reads ++ [(pos, v)] }) := by
  have hget : s.mem[pos]? = some v := by
    rw [hmem, hpos, getElem?_append_length]
  rw [read, hget]

theorem write_eq {u : ℕ} (hmem : s.mem = a ++ u :: b) (hpos : pos = a.length) (v : ℕ) :
    s.write pos v = .ok { s with mem := a ++ v :: b } := by
  have hlt : pos < s.mem.length := by
    rw [hmem, hpos, List.length_append, List.length_cons]
    omega
  have hset : s.mem.set pos v = a ++ v :: b := by
    rw [hmem, hpos, List.set_append_right _ _ (Nat.le_refl _), Nat.sub_self]
    rfl
  rw [write, if_pos hlt, hset]

theorem set_eq {a' b' : List ℕ} {other u v : ℕ} (hother : s.mem = a ++ v :: b)
    (hotherPos : other = a.length) (hmem : s.mem = a' ++ u :: b') (hpos : pos = a'.length) :
    s.set pos other = .ok { s with mem := a' ++ v :: b', reads := s.reads ++ [(other, v)] } := by
  rw [set, read_eq hother hotherPos]
  exact write_eq (s := { s with reads := s.reads ++ [(other, v)] }) hmem hpos v

end Composing

/-! ## The inner loop -/

section InnerLoop

variable (composed : ℕ → ℕ → ℕ) (cccOf : ℕ → ℕ)

/-- A starter is composed to a starter. -/
def ComposesStarters : Prop :=
  ∀ a b, cccOf a = 0 → composed a b ≠ replacementChar → cccOf (composed a b) = 0

/-- What has been read is what the sequence was at first. -/
def ReadsInput (cs : List ℕ) (s : Composing) : Prop := ∀ r ∈ s.reads, cs[r.1]? = some r.2

/-- Inside the inner loop. `pre` has been read and `rest` has not. The composition of `pre` is in
the memory, but for its last starter, which is a variable, and behind it is what is not needed any
more. -/
structure RunAt (cs pre rest before between junk : List ℕ) (stale : ℕ) (s : Composing) :
    Prop where
  mem : s.mem = before ++ stale :: (between ++ (junk ++ rest))
  input : cs = pre ++ rest
  starterPin : s.starterPin = before.length
  repPin : s.repPin = before.length + between.length
  cp1Pin : s.cp1Pin + 1 = pre.length
  cp2Pin : s.cp2Pin = pre.length
  length : pre.length = before.length + (between.length + junk.length) + 1
  composition : canonicalComposition composed cccOf pre = before ++ s.cp1 :: between
  starter : cccOf s.cp1 = 0
  between_ne : ∀ b ∈ between, cccOf b ≠ 0
  between_le : ∀ d ∈ pre.getLast?, ∀ b ∈ between, cccOf b ≤ cccOf d
  prevCcc : ∀ k : ℕ, s.prevCcc < k ↔ ∀ b ∈ between, cccOf b < k
  reads : ReadsInput cs s

variable {composed cccOf} {cs pre rest before between junk : List ℕ} {stale : ℕ} {s : Composing}

theorem ReadsInput.append {r : ℕ × ℕ} (h : ReadsInput cs s) (hr : cs[r.1]? = some r.2) :
    ReadsInput cs { s with reads := s.reads ++ [r] } := by
  intro r' hr'
  rcases List.mem_append.1 hr' with hr' | hr'
  · exact h r' hr'
  · rw [List.mem_singleton.1 hr']
    exact hr

/-- The inner loop ends at the end of the sequence, or at a starter that is not composed. -/
def RunEnd (composed : ℕ → ℕ → ℕ) (cccOf : ℕ → ℕ) (cs before : List ℕ) (start : ℕ)
    (s : Composing) : Prop :=
  ∃ pre rest between junk stale,
    RunAt composed cccOf cs pre rest before between junk stale s ∧ start ≤ pre.length ∧
      ∀ c r, rest = c :: r → cccOf c = 0 ∧
        canonicalComposition composed cccOf (pre ++ [c]) = before ++ s.cp1 :: between ++ [c]

/-- A code point that is no starter has the greatest class since the last starter. -/
theorem RunAt.le_of_ordered {c : ℕ}
    (h : RunAt composed cccOf cs pre (c :: rest) before between junk stale s)
    (hordered : CanonicallyOrdered cccOf cs) (hccc : cccOf c ≠ 0) :
    ∀ b ∈ between, cccOf b ≤ cccOf c := by
  have hne : pre ≠ [] := by
    rintro rfl
    have hlength := h.length
    simp at hlength
  obtain ⟨pre', d, rfl⟩ := List.eq_nil_or_concat' pre |>.resolve_left hne
  rw [CanonicallyOrdered, h.input, List.append_assoc] at hordered
  have hdc := (List.isChain_append_cons_cons.1 hordered).2.1
  intro b hb
  have hbd := h.between_le d (by simp) b hb
  exact hbd.trans (hdc.resolve_left hccc)

theorem RunAt.mem_eq {c : ℕ}
    (h : RunAt composed cccOf cs pre (c :: rest) before between junk stale s) :
    s.mem = (before ++ stale :: (between ++ junk)) ++ c :: rest ∧
      s.cp2Pin = (before ++ stale :: (between ++ junk)).length ∧ cs[s.cp2Pin]? = some c := by
  refine ⟨?_, ?_, ?_⟩
  · rw [h.mem]
    simp
  · rw [h.cp2Pin, h.length]
    simp
    omega
  · rw [h.input, h.cp2Pin, getElem?_append_length]

theorem RunAt.composition_concat (h : RunAt composed cccOf cs pre rest before between junk stale s)
    (c : ℕ) :
    canonicalComposition composed cccOf (pre ++ [c]) =
      if s.prevCcc < cccOf c ∧ composed s.cp1 c ≠ replacementChar then
        before ++ composed s.cp1 c :: between
      else before ++ s.cp1 :: (between ++ [c]) := by
  rw [canonicalComposition_concat, h.composition, composeNext_of_starter h.starter h.between_ne]
  simp only [h.prevCcc]

theorem RunAt.concat_composed {c : ℕ}
    (h : RunAt composed cccOf cs pre (c :: rest) before between junk stale s)
    (hstarter : ComposesStarters composed cccOf)
    (hcompose : s.prevCcc < cccOf c ∧ composed s.cp1 c ≠ replacementChar) :
    RunAt composed cccOf cs (pre ++ [c]) rest before between (junk ++ [c]) stale
      { s with
        cp1 := composed s.cp1 c
        cp1Pin := s.cp1Pin + 1
        cp2Pin := s.cp2Pin + 1
        reads := s.reads ++ [(s.cp2Pin, c)] } where
  mem := by simp [h.mem]
  input := by simp [h.input]
  starterPin := h.starterPin
  repPin := h.repPin
  cp1Pin := by simp [h.cp1Pin]
  cp2Pin := by simp [h.cp2Pin]
  length := by
    simp [h.length]
    omega
  composition := by rw [h.composition_concat, if_pos hcompose]
  starter := hstarter _ _ h.starter hcompose.2
  between_ne := h.between_ne
  between_le := by simpa using fun b hb => ((h.prevCcc _).1 hcompose.1 b hb).le
  prevCcc := h.prevCcc
  reads := h.reads.append h.mem_eq.2.2

theorem RunAt.concat_kept {c j : ℕ} {junk' : List ℕ}
    (h : RunAt composed cccOf cs pre (c :: rest) before between junk stale s)
    (hordered : CanonicallyOrdered cccOf cs) (hjunk : junk ++ [c] = j :: junk')
    (hcompose : ¬ (s.prevCcc < cccOf c ∧ composed s.cp1 c ≠ replacementChar))
    (hccc : cccOf c ≠ 0) :
    RunAt composed cccOf cs (pre ++ [c]) rest before (between ++ [c]) junk' stale
      { s with
        mem := (before ++ stale :: between) ++ c :: (junk' ++ rest)
        prevCcc := cccOf c
        repPin := s.repPin + 1
        cp1Pin := s.cp1Pin + 1
        cp2Pin := s.cp2Pin + 1
        reads := s.reads ++ [(s.cp2Pin, c)] ++ [(s.cp2Pin, c)] } := by
  have hle := h.le_of_ordered hordered hccc
  have hlength : junk'.length = junk.length := by simpa using (congrArg List.length hjunk).symm
  exact {
    mem := by simp
    input := by simp [h.input]
    starterPin := h.starterPin
    repPin := by simp [h.repPin, Nat.add_assoc]
    cp1Pin := by simp [h.cp1Pin]
    cp2Pin := by simp [h.cp2Pin]
    length := by
      simp [h.length, hlength]
      omega
    composition := by rw [h.composition_concat, if_neg hcompose]
    starter := h.starter
    between_ne := by
      intro b hb
      rcases List.mem_append.1 hb with hb | hb
      · exact h.between_ne b hb
      · rw [List.mem_singleton.1 hb]
        exact hccc
    between_le := by
      intro d hd b hb
      rw [List.getLast?_concat, Option.mem_some_iff] at hd
      subst hd
      rcases List.mem_append.1 hb with hb | hb
      · exact hle b hb
      · rw [List.mem_singleton.1 hb]
    prevCcc := by
      intro k
      dsimp only
      rw [Nat.cast_lt]
      constructor
      · intro hk b hb
        rcases List.mem_append.1 hb with hb | hb
        · exact Nat.lt_of_le_of_lt (hle b hb) hk
        · rw [List.mem_singleton.1 hb]
          exact hk
      · intro hk
        exact hk c (by simp)
    reads := (h.reads.append h.mem_eq.2.2).append h.mem_eq.2.2 }

theorem RunAt.step {start : ℕ}
    (h : RunAt composed cccOf cs pre rest before between junk stale s) (hstart : start ≤ pre.length)
    (hstarter : ComposesStarters composed cccOf) (hordered : CanonicallyOrdered cccOf cs) :
    Sat (fun _ => False)
      (FlowSat (fun s' => (∃ pre rest between junk stale,
          RunAt composed cccOf cs pre rest before between junk stale s' ∧ start ≤ pre.length) ∧
            s'.mem.length - s'.cp2Pin < s.mem.length - s.cp2Pin)
        (RunEnd composed cccOf cs before start)) (composeRun composed cccOf s) := by
  cases rest with
  | nil =>
      have hstop : s.cp2Pin = s.mem.length := by
        rw [h.cp2Pin, h.mem, h.length]
        simp
        omega
      rw [composeRun, if_pos hstop, sat_ok]
      exact ⟨pre, [], between, junk, stale, h, hstart, by simp⟩
  | cons c rest =>
      obtain ⟨hmem, hpos, hget⟩ := h.mem_eq
      have hlt : s.cp2Pin < s.mem.length := by
        have hlength := congrArg List.length hmem
        rw [List.length_append, List.length_cons] at hlength
        omega
      have hconcat : start ≤ (pre ++ [c]).length := by
        rw [List.length_append]
        exact Nat.le_add_right_of_le hstart
      rw [composeRun, if_neg (Nat.ne_of_lt hlt), Composing.read_eq hmem hpos]
      show Sat _ _ (ite _ _ _)
      dsimp only
      by_cases hcompose : s.prevCcc < cccOf c ∧ composed s.cp1 c ≠ replacementChar
      · rw [if_pos hcompose, sat_ok]
        exact ⟨⟨_, _, _, _, _, h.concat_composed hstarter hcompose, hconcat⟩,
          Nat.sub_lt_sub_left hlt (Nat.lt_succ_self _)⟩
      rw [if_neg hcompose]
      by_cases hccc : cccOf c = 0
      · rw [if_pos hccc, sat_ok]
        refine ⟨pre, c :: rest, between, junk, stale, { h with reads := h.reads.append hget },
          hstart, ?_⟩
        intro c' rest' heq
        cases heq
        refine ⟨hccc, ?_⟩
        rw [h.composition_concat, if_neg hcompose]
        simp
      · rw [if_neg hccc]
        obtain ⟨j, junk', -, hjunk, -⟩ := exists_overwritten junk c
        have hkept := h.concat_kept hordered hjunk hcompose hccc
        have hsplit : s.mem = (before ++ stale :: between) ++ j :: (junk' ++ rest) := by
          rw [h.mem, overwritten_append hjunk]
          simp
        have hrep : s.repPin + 1 = (before ++ stale :: between).length := by
          rw [h.repPin]
          simp
          omega
        have hwrite : Composing.set { s with reads := s.reads ++ [(s.cp2Pin, c)] } (s.repPin + 1)
            s.cp2Pin = .ok
              { s with
                mem := (before ++ stale :: between) ++ c :: (junk' ++ rest)
                reads := s.reads ++ [(s.cp2Pin, c)] ++ [(s.cp2Pin, c)] } :=
          Composing.set_eq hmem hpos hsplit hrep
        rw [hwrite]
        show Sat _ _ (.ok _)
        rw [sat_ok]
        refine ⟨⟨_, _, _, _, _, hkept, hconcat⟩, ?_⟩
        have hlength : ((before ++ stale :: between) ++ c :: (junk' ++ rest)).length =
            s.mem.length := by
          rw [hsplit]
          simp
        dsimp only
        rw [hlength]
        exact Nat.sub_lt_sub_left hlt (Nat.lt_succ_self _)

/-- The inner loop takes in the code points up to the next starter that is not composed. -/
theorem RunAt.loop (h : RunAt composed cccOf cs pre rest before between junk stale s)
    (hstarter : ComposesStarters composed cccOf) (hordered : CanonicallyOrdered cccOf cs) :
    Sat (fun _ => False) (RunEnd composed cccOf cs before pre.length)
      (Loop.loop (composeRun composed cccOf) .exhausted (s.mem.length + 1) s) := by
  apply loop_sat (fun s => ∃ pre' rest between junk stale,
    RunAt composed cccOf cs pre' rest before between junk stale s ∧ pre.length ≤ pre'.length) _
    (fun s => s.mem.length - s.cp2Pin) ⟨_, _, _, _, _, h, Nat.le_refl _⟩
  · rintro s - ⟨pre', rest, between, junk, stale, h, hstart⟩
    exact h.step hstart hstarter hordered
  · exact Nat.lt_succ_of_le (Nat.sub_le _ _)

end InnerLoop

/-! ## The outer loop -/

section OuterLoop

variable (composed : ℕ → ℕ → ℕ) (cccOf : ℕ → ℕ)

/-- Between the rounds of the outer loop. `pre` has been read and its composition is in the memory,
`rest` begins with a starter that is not composed. -/
structure RoundAt (cs pre rest before junk : List ℕ) (s : Composing) : Prop where
  mem : s.mem = before ++ (junk ++ rest)
  input : cs = pre ++ rest
  repPin : s.repPin = before.length
  cp1Pin : s.cp1Pin = pre.length
  length : pre.length = before.length + junk.length
  composition : canonicalComposition composed cccOf pre = before
  next : ∀ c r, rest = c :: r → cccOf c = 0 ∧
    canonicalComposition composed cccOf (pre ++ [c]) = before ++ [c]
  reads : ReadsInput cs s

/-- What is in the memory up to the write pin is the composition of the input. -/
structure ComposesTo (cs : List ℕ) (s : Composing) : Prop where
  composition : s.mem.take s.repPin = canonicalComposition composed cccOf cs
  length : s.repPin = (canonicalComposition composed cccOf cs).length
  reads : ReadsInput cs s

variable {composed cccOf} {cs pre rest before junk : List ℕ} {s : Composing}

theorem RunAt.round {between : List ℕ} {stale : ℕ}
    (h : RunAt composed cccOf cs pre rest before between junk stale s)
    (hnext : ∀ c r, rest = c :: r → cccOf c = 0 ∧
      canonicalComposition composed cccOf (pre ++ [c]) = before ++ s.cp1 :: between ++ [c]) :
    RoundAt composed cccOf cs pre rest (before ++ s.cp1 :: between) junk
      { s with
        mem := before ++ s.cp1 :: (between ++ (junk ++ rest))
        cp1Pin := s.cp1Pin + 1
        repPin := s.repPin + 1 } where
  mem := by simp
  input := h.input
  repPin := by
    simp [h.repPin]
    omega
  cp1Pin := h.cp1Pin
  length := by
    simp [h.length]
    omega
  composition := h.composition
  next := hnext
  reads := h.reads

theorem RoundAt.mem_eq {c : ℕ} (h : RoundAt composed cccOf cs pre (c :: rest) before junk s) :
    s.mem = (before ++ junk) ++ c :: rest ∧ s.cp1Pin = (before ++ junk).length ∧
      cs[s.cp1Pin]? = some c := by
  refine ⟨?_, ?_, ?_⟩
  · rw [h.mem, List.append_assoc]
  · rw [h.cp1Pin, h.length, List.length_append]
  · rw [h.input, h.cp1Pin, getElem?_append_length]

theorem RoundAt.set_eq {c j : ℕ} {junk' : List ℕ}
    (h : RoundAt composed cccOf cs pre (c :: rest) before junk s) (hjunk : junk ++ [c] = j :: junk') :
    Composing.set { s with starterPin := s.repPin } s.repPin s.cp1Pin =
      .ok
        { s with
          starterPin := s.repPin
          mem := before ++ c :: (junk' ++ rest)
          reads := s.reads ++ [(s.cp1Pin, c)] } := by
  obtain ⟨hmem, hpos, -⟩ := h.mem_eq
  have hsplit : s.mem = before ++ j :: (junk' ++ rest) := by
    rw [h.mem, overwritten_append hjunk]
  exact Composing.set_eq hmem hpos hsplit h.repPin

theorem RoundAt.runAt {c j : ℕ} {junk' : List ℕ}
    (h : RoundAt composed cccOf cs pre (c :: rest) before junk s)
    (hjunk : junk ++ [c] = j :: junk') :
    RunAt composed cccOf cs (pre ++ [c]) rest before [] junk' c
      { s with
        starterPin := s.repPin
        mem := before ++ c :: (junk' ++ rest)
        cp2Pin := s.cp1Pin + 1
        cp1 := c
        prevCcc := -1
        reads := s.reads ++ [(s.cp1Pin, c)] ++ [(s.cp1Pin, c)] } := by
  obtain ⟨hccc, hnext⟩ := h.next c rest rfl
  have hget := h.mem_eq.2.2
  have hlength : junk'.length = junk.length := by simpa using (congrArg List.length hjunk).symm
  exact {
    mem := by simp
    input := by simp [h.input]
    starterPin := h.repPin
    repPin := h.repPin
    cp1Pin := by simp [h.cp1Pin]
    cp2Pin := by simp [h.cp1Pin]
    length := by simp [h.length, hlength]
    composition := hnext
    starter := hccc
    between_ne := by simp
    between_le := by simp
    prevCcc := by
      intro k
      simp
      omega
    reads := (h.reads.append hget).append hget }

theorem RoundAt.measure_lt {c stale : ℕ} {pre' rest' between junk' : List ℕ} {s' : Composing}
    (h : RoundAt composed cccOf cs pre (c :: rest) before junk s)
    (hend : RunAt composed cccOf cs pre' rest' before between junk' stale s')
    (hstart : (pre ++ [c]).length ≤ pre'.length) :
    (before ++ s'.cp1 :: (between ++ (junk' ++ rest'))).length - (s'.cp1Pin + 1) <
      s.mem.length - s.cp1Pin := by
  have hinput := congrArg List.length (hend.input.symm.trans h.input)
  have hmem := congrArg List.length h.mem
  have hbefore := h.length
  have hend' := hend.length
  rw [hend.cp1Pin, h.cp1Pin, hmem]
  simp only [List.length_append, List.length_cons, List.length_nil] at hinput hstart ⊢
  omega

theorem RoundAt.composesTo (h : RoundAt composed cccOf cs pre [] before junk s) :
    ComposesTo composed cccOf cs s := by
  have hcs : canonicalComposition composed cccOf cs = before := by
    rw [h.input, List.append_nil, h.composition]
  exact {
    composition := by
      rw [h.repPin, h.mem, hcs]
      simp
    length := by rw [h.repPin, hcs]
    reads := h.reads }

theorem RoundAt.step (h : RoundAt composed cccOf cs pre rest before junk s)
    (hstarter : ComposesStarters composed cccOf) (hordered : CanonicallyOrdered cccOf cs) :
    Sat (fun _ => False)
      (FlowSat (fun s' => (∃ pre rest before junk,
          RoundAt composed cccOf cs pre rest before junk s') ∧
            s'.mem.length - s'.cp1Pin < s.mem.length - s.cp1Pin)
        (ComposesTo composed cccOf cs)) (composeRound composed cccOf s) := by
  cases rest with
  | nil =>
      have hstop : s.cp1Pin = s.mem.length := by
        rw [h.cp1Pin, h.mem, h.length]
        simp
      rw [composeRound, if_pos hstop, sat_ok]
      exact h.composesTo
  | cons c rest =>
      obtain ⟨j, junk', x, hjunk, -, hx, hxLength⟩ := exists_overwritten junk c
      obtain ⟨hmem, hpos, -⟩ := h.mem_eq
      have hgo : s.cp1Pin ≠ s.mem.length := by
        rw [hpos, hmem]
        simp
      have hread : Composing.read
          { s with
            starterPin := s.repPin
            mem := before ++ c :: (junk' ++ rest)
            cp2Pin := s.cp1Pin + 1
            reads := s.reads ++ [(s.cp1Pin, c)] } s.cp1Pin =
          .ok (c,
            { s with
              starterPin := s.repPin
              mem := before ++ c :: (junk' ++ rest)
              cp2Pin := s.cp1Pin + 1
              reads := s.reads ++ [(s.cp1Pin, c)] ++ [(s.cp1Pin, c)] }) := by
        -- the starter is still there, since only what is before it has been overwritten
        apply Composing.read_eq (a := before ++ x) (b := rest)
        · show before ++ c :: (junk' ++ rest) = _
          rw [← List.cons_append, hx]
          simp
        · rw [hpos, List.length_append, List.length_append, hxLength]
      rw [composeRound, if_neg hgo, h.set_eq hjunk]
      show Sat _ _ (Composing.read _ _ >>= _)
      rw [hread]
      show Sat _ _ (Loop.loop _ _ _ _ >>= _)
      apply Sat.bind ((h.runAt hjunk).loop hstarter hordered)
      rintro s' ⟨pre', rest', between, junk'', stale, hend, hstart, hnext⟩
      rw [Composing.write_eq hend.mem hend.starterPin]
      show Sat _ _ (.ok _)
      rw [sat_ok]
      exact ⟨⟨_, _, _, _, hend.round hnext⟩, h.measure_lt hend hstart⟩

theorem RoundAt.loop (h : RoundAt composed cccOf cs pre rest before junk s)
    (hstarter : ComposesStarters composed cccOf) (hordered : CanonicallyOrdered cccOf cs) :
    Sat (fun _ => False) (ComposesTo composed cccOf cs)
      (Loop.loop (composeRound composed cccOf) .exhausted (s.mem.length + 1) s) := by
  apply loop_sat (fun s => ∃ pre rest before junk,
    RoundAt composed cccOf cs pre rest before junk s) _
    (fun s => s.mem.length - s.cp1Pin) ⟨_, _, _, _, h⟩
  · rintro s - ⟨pre, rest, before, junk, h⟩
    exact h.step hstarter hordered
  · exact Nat.lt_succ_of_le (Nat.sub_le _ _)

/-- A sequence that is canonically ordered and starts with a starter is composed in place, and no
unit is read that has been overwritten with another one. -/
theorem canonicalCompose_spec (composed : ℕ → ℕ → ℕ) (cccOf : ℕ → ℕ)
    (hstarter : ComposesStarters composed cccOf) (first : ℕ)
    (rest : List ℕ) (hfirst : cccOf first = 0)
    (hordered : CanonicallyOrdered cccOf (first :: rest)) :
    ∃ s, canonicalCompose composed cccOf (first :: rest) = .ok s ∧
      ComposesTo composed cccOf (first :: rest) s := by
  have hround : RoundAt composed cccOf (first :: rest) [] (first :: rest) [] []
      ⟨first :: rest, 0, 0, 0, 0, 0, -1, []⟩ := {
    mem := rfl
    input := rfl
    repPin := rfl
    cp1Pin := rfl
    length := rfl
    composition := rfl
    next := by
      rintro c r ⟨⟩
      exact ⟨hfirst, rfl⟩
    reads := by
      intro r hr
      cases hr }
  exact (hround.loop hstarter hordered).exists_ok

theorem canonicalCompose_spec_dot_below :
    let composed := fun a b => if a = 0x61 ∧ b = 0x323 then 0x1EA1 else replacementChar
    let cccOf := fun c => if c = 0x323 then 220 else if c = 0x301 then 230 else 0
    canonicalComposition composed cccOf [0x61, 0x323, 0x301] = [0x1EA1, 0x301] ∧
      ∃ s, canonicalCompose composed cccOf [0x61, 0x323, 0x301] = .ok s ∧
        ComposesTo composed cccOf [0x61, 0x323, 0x301] s := by
  intro composed cccOf
  have hstarter : ComposesStarters composed cccOf := by
    intro a b _ hne
    by_cases hab : a = 0x61 ∧ b = 0x323
    · have hcomposed : composed a b = 0x1EA1 := if_pos hab
      rw [hcomposed]
      rfl
    · exact absurd (if_neg hab) hne
  exact ⟨by decide, canonicalCompose_spec composed cccOf hstarter 0x61 [0x323, 0x301] rfl
    (by decide)⟩

end OuterLoop

end Webpp.Unicode
