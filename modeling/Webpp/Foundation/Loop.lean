import Mathlib.Data.Nat.Basic

/-!
# Loops with faults

A loop is its body: a function that returns the state of the next round or the
result. The body can fault, and a loop that is run with too few rounds faults
with `exhausted`. The rules prove a result for every number of rounds above a
measure that each round decreases, so that termination is part of them.
-/

namespace Loop

variable {ε σ ρ : Type*} {s : σ} {r : ρ} {s s' : σ} {n : ℕ}

/-- What a round of a loop leads to. -/
inductive Flow (σ ρ : Type*) where
  | next (s : σ)
  | done (r : ρ)
  deriving DecidableEq

/-- At most `n` rounds of the loop with the body `step`. -/
def loop (step : σ → Except ε (Flow σ ρ)) (exhausted : ε) : ℕ → σ → Except ε ρ
  | 0, _ => .error exhausted
  | n + 1, s =>
      match step s with
      | .error e => .error e
      | .ok (.next s') => loop step exhausted n s'
      | .ok (.done r) => .ok r

variable {step : σ → Except ε (Flow σ ρ)} {exhausted : ε}

@[simp] theorem loop_zero (s : σ) : loop step exhausted 0 s = .error exhausted := rfl

theorem loop_of_next (h : step s = .ok (.next s')) (n : ℕ) :
    loop step exhausted (n + 1) s = loop step exhausted n s' := by
  rw [loop, h]

theorem loop_of_done (h : step s = .ok (.done r)) (n : ℕ) :
    loop step exhausted (n + 1) s = .ok r := by
  rw [loop, h]

theorem loop_of_error {e : ε} (h : step s = .error e) (n : ℕ) :
    loop step exhausted (n + 1) s = .error e := by
  rw [loop, h]

/-- More rounds than enough change nothing. -/
theorem loop_mono {n m : ℕ} (h : loop step exhausted n s = .ok r) (hnm : n ≤ m) :
    loop step exhausted m s = .ok r := by
  induction n generalizing s m with
  | zero =>
      rw [loop_zero] at h
      cases h
  | succ n ih =>
      obtain ⟨m, rfl⟩ := Nat.exists_eq_add_of_le' (Nat.lt_of_lt_of_le (Nat.succ_pos n) hnm)
      rw [loop] at h ⊢
      cases hstep : step s with
      | error e =>
          rw [hstep] at h
          exact h
      | ok flow =>
          rw [hstep] at h
          cases flow with
          | next s' => exact ih h (Nat.le_of_succ_le_succ hnm)
          | done r' => exact h

/-- All numbers of rounds that are enough have one result. -/
theorem loop_unique {r r' : ρ} {n m : ℕ} (h : loop step exhausted n s = .ok r)
    (h' : loop step exhausted m s = .ok r') : r = r' := by
  rcases Nat.le_total n m with hnm | hmn
  · exact Except.ok.inj ((loop_mono h hnm).symm.trans h')
  · exact Except.ok.inj (h.symm.trans (loop_mono h' hmn))

/-- A round that leads back to its state is repeated forever. -/
theorem loop_of_next_self (h : step s = .ok (.next s)) (n : ℕ) :
    loop step exhausted n s = .error exhausted := by
  induction n with
  | zero => rfl
  | succ n ih => rw [loop_of_next h, ih]

/-- Where each round decreases a measure, all numbers of rounds above it do the same. -/
theorem loop_enough (μ : σ → ℕ) (hstep : ∀ s s', step s = .ok (.next s') → μ s' < μ s)
    {n m : ℕ} (hn : μ s < n) (hm : μ s < m) :
    loop step exhausted n s = loop step exhausted m s := by
  induction n generalizing s m with
  | zero => exact absurd hn (Nat.not_lt_zero _)
  | succ n ih =>
      obtain ⟨m, rfl⟩ := Nat.exists_eq_add_of_le' (Nat.lt_of_le_of_lt (Nat.zero_le _) hm)
      rw [loop, loop]
      cases hround : step s with
      | error e => rfl
      | ok flow =>
          cases flow with
          | next s' =>
              have hless := hstep s s' hround
              exact ih (Nat.lt_of_lt_of_le hless (Nat.le_of_lt_succ hn))
                (Nat.lt_of_lt_of_le hless (Nat.le_of_lt_succ hm))
          | done r => rfl

/-! ## Results with a property -/

section Sat

universe u

variable {α β : Type u} {allowed : ε → Prop}

/-- A result of `x` has the property `P`, and a fault of `x` is an allowed one. -/
def Sat (allowed : ε → Prop) (P : α → Prop) : Except ε α → Prop
  | .ok a => P a
  | .error e => allowed e

@[simp] theorem sat_ok {P : α → Prop} {a : α} : Sat allowed P (.ok a) ↔ P a := Iff.rfl

@[simp] theorem sat_error {P : α → Prop} {e : ε} :
    Sat allowed P (.error e : Except ε α) ↔ allowed e := Iff.rfl

theorem sat_any (x : Except ε α) : Sat (fun _ => True) (fun _ => True) x := by
  cases x with
  | ok a => trivial
  | error e => trivial

theorem Sat.mono {P Q : α → Prop} {x : Except ε α} (h : Sat allowed P x)
    (hPQ : ∀ a, P a → Q a) : Sat allowed Q x := by
  cases x with
  | ok a => exact hPQ a h
  | error e => exact h

/-- Where no fault is allowed, there is a result. -/
theorem Sat.exists_ok {P : α → Prop} {x : Except ε α} (h : Sat (fun _ => False) P x) :
    ∃ a, x = .ok a ∧ P a := by
  cases x with
  | ok a => exact ⟨a, rfl, h⟩
  | error e => exact h.elim

theorem Sat.and_ok {P : α → Prop} {x : Except ε α} (h : Sat allowed P x) :
    Sat allowed (fun a => P a ∧ x = .ok a) x := by
  cases x with
  | ok a => exact ⟨h, rfl⟩
  | error e => exact h

theorem Sat.bind {P : α → Prop} {Q : β → Prop} {x : Except ε α} {f : α → Except ε β}
    (h : Sat allowed P x) (hf : ∀ a, P a → Sat allowed Q (f a)) :
    Sat allowed Q (x >>= f) := by
  cases x with
  | ok a => exact hf a h
  | error e => exact h

end Sat

/-- The state `s'` is reached from `s` by rounds of the loop. -/
inductive Reaches (step : σ → Except ε (Flow σ ρ)) (s : σ) : σ → Prop where
  | refl : Reaches step s s
  | next {s' s'' : σ} (h : Reaches step s s') (hstep : step s' = .ok (.next s'')) :
      Reaches step s s''

/-- What holds of the next state, or of the result. -/
def FlowSat (Next : σ → Prop) (Done : ρ → Prop) : Flow σ ρ → Prop
  | .next s => Next s
  | .done r => Done r

/-- The rule of loops: an invariant that each round keeps, a measure that each round
decreases, and a property of the results. The invariant is only asked of states that
are reached. -/
theorem loop_sat {allowed : ε → Prop} (Inv : σ → Prop) (Done : ρ → Prop) (μ : σ → ℕ) {s₀ : σ}
    (h₀ : Inv s₀) (hstep : ∀ s, Reaches step s₀ s → Inv s →
      Sat allowed (FlowSat (fun s' => Inv s' ∧ μ s' < μ s) Done) (step s))
    (hn : μ s₀ < n) : Sat allowed Done (loop step exhausted n s₀) := by
  have hrun : ∀ n s, Reaches step s₀ s → Inv s → μ s < n →
      Sat allowed Done (loop step exhausted n s) := by
    intro n
    induction n with
    | zero => exact fun s _ _ hn => absurd hn (Nat.not_lt_zero _)
    | succ n ih =>
        intro s hreach hs hn
        have hsat := hstep s hreach hs
        cases hround : step s with
        | error e =>
            rw [hround] at hsat
            rw [loop_of_error hround]
            exact hsat
        | ok flow =>
            rw [hround] at hsat
            cases flow with
            | next s' =>
                rw [loop_of_next hround]
                exact ih s' (hreach.next hround) hsat.1
                  (Nat.lt_of_lt_of_le hsat.2 (Nat.le_of_lt_succ hn))
            | done r =>
                rw [loop_of_done hround]
                exact hsat
  exact hrun n s₀ .refl h₀ hn

/-- A state that is reached is the first one, or is reached from the second one. -/
theorem Reaches.head (h : Reaches step s s') :
    s' = s ∨ ∃ s₁, step s = .ok (.next s₁) ∧ Reaches step s₁ s' := by
  induction h with
  | refl => exact .inl rfl
  | next hreach hstep ih =>
      rcases ih with rfl | ⟨s₁, hfirst, hrest⟩
      · exact .inr ⟨_, hstep, .refl⟩
      · exact .inr ⟨s₁, hfirst, hrest.next hstep⟩

/-- What each round keeps holds of all states that are reached. -/
theorem Reaches.invariant {Inv : σ → Prop} {s₀ s : σ} (h : Reaches step s₀ s) (h₀ : Inv s₀)
    (hstep : ∀ s s', Reaches step s₀ s → Inv s → step s = .ok (.next s') → Inv s') :
    Inv s := by
  induction h with
  | refl => exact h₀
  | next hreach hround ih => exact hstep _ _ hreach ih hround

/-- The rule of loops that need not end: a result has what the invariant gives. -/
theorem loop_done (Inv : σ → Prop) (Done : ρ → Prop)
    (hnext : ∀ s s', Inv s → step s = .ok (.next s') → Inv s')
    (hdone : ∀ s r, Inv s → step s = .ok (.done r) → Done r) (hs : Inv s)
    (h : loop step exhausted n s = .ok r) : Done r := by
  induction n generalizing s with
  | zero =>
      rw [loop_zero] at h
      cases h
  | succ n ih =>
      cases hstep : step s with
      | error e =>
          rw [loop_of_error hstep] at h
          cases h
      | ok flow =>
          cases flow with
          | next s' =>
              rw [loop_of_next hstep] at h
              exact ih (hnext s s' hs hstep) h
          | done r' =>
              rw [loop_of_done hstep] at h
              cases h
              exact hdone s r hs hstep

/-- The same rule, for rounds that are described as a whole. -/
theorem loop_partly (Inv : σ → Prop) (Done : ρ → Prop)
    (hstep : ∀ s, Inv s → Sat (fun _ => True) (FlowSat Inv Done) (step s))
    (hs : Inv s) (h : loop step exhausted n s = .ok r) : Done r := by
  refine loop_done Inv Done (fun s s' hs hround => ?_) (fun s r hs hround => ?_) hs h
  · have hflow := hstep s hs
    rw [hround] at hflow
    exact hflow
  · have hflow := hstep s hs
    rw [hround] at hflow
    exact hflow

/-! ## Runs of a loop in pieces

`LeadsTo` follows a loop for some rounds, `EndsWith` to its result. Both say that the
rounds suffice: more than the measure `μ` at the start are enough.
-/

/-- With enough rounds left, the loop comes from `s` to `s'` and has enough rounds left
for the rest. -/
def LeadsTo (step : σ → Except ε (Flow σ ρ)) (exhausted : ε) (μ : σ → ℕ) (s s' : σ) : Prop :=
  ∀ n, μ s < n → ∃ n', μ s' < n' ∧ loop step exhausted n s = loop step exhausted n' s'

/-- With enough rounds left, the loop ends with `r`. -/
def EndsWith (step : σ → Except ε (Flow σ ρ)) (exhausted : ε) (μ : σ → ℕ) (s : σ)
    (r : Except ε ρ) : Prop :=
  ∀ n, μ s < n → loop step exhausted n s = r

section Pieces

variable {μ : σ → ℕ}

theorem LeadsTo.refl (s : σ) : LeadsTo step exhausted μ s s := fun n hn => ⟨n, hn, rfl⟩

theorem LeadsTo.trans {s s' s'' : σ} (h : LeadsTo step exhausted μ s s')
    (h' : LeadsTo step exhausted μ s' s'') : LeadsTo step exhausted μ s s'' := by
  intro n hn
  obtain ⟨n', hn', heq⟩ := h n hn
  obtain ⟨n'', hn'', heq'⟩ := h' n' hn'
  exact ⟨n'', hn'', heq.trans heq'⟩

theorem LeadsTo.ends {r : Except ε ρ} (h : LeadsTo step exhausted μ s s')
    (h' : EndsWith step exhausted μ s' r) : EndsWith step exhausted μ s r := by
  intro n hn
  obtain ⟨n', hn', heq⟩ := h n hn
  rw [heq, h' n' hn']

theorem leadsTo_of_next (h : step s = .ok (.next s')) (hμ : μ s' < μ s) :
    LeadsTo step exhausted μ s s' := by
  intro n hn
  cases n with
  | zero => exact absurd hn (Nat.not_lt_zero _)
  | succ n => exact ⟨n, Nat.lt_of_lt_of_le hμ (Nat.le_of_lt_succ hn), loop_of_next h n⟩

/-- A state from which the round does the same. -/
theorem leadsTo_of_eq (h : step s = step s') (hμ : μ s' < μ s) :
    LeadsTo step exhausted μ s s' := by
  intro n hn
  cases n with
  | zero => exact absurd hn (Nat.not_lt_zero _)
  | succ n => exact ⟨n + 1, Nat.lt_trans hμ hn, by rw [loop, loop, h]⟩

theorem endsWith_of_done (h : step s = .ok (.done r)) :
    EndsWith step exhausted μ s (.ok r) := by
  intro n hn
  cases n with
  | zero => exact absurd hn (Nat.not_lt_zero _)
  | succ n => exact loop_of_done h n

theorem endsWith_of_error {e : ε} (h : step s = .error e) :
    EndsWith step exhausted μ s (.error e) := by
  intro n hn
  cases n with
  | zero => exact absurd hn (Nat.not_lt_zero _)
  | succ n => exact loop_of_error h n

end Pieces

/-! ## Two computations side by side -/

section Related

universe u v

variable {α γ : Type u} {β δ : Type v}

/-- Two computations have related results or the same fault. -/
inductive Related (R : α → β → Prop) : Except ε α → Except ε β → Prop where
  | ok {a : α} {b : β} (h : R a b) : Related R (.ok a) (.ok b)
  | error (e : ε) : Related R (.error e) (.error e)

theorem Related.mono {R S : α → β → Prop} (hRS : ∀ a b, R a b → S a b)
    {x : Except ε α} {y : Except ε β} (h : Related R x y) : Related S x y := by
  cases h with
  | ok h => exact .ok (hRS _ _ h)
  | error e => exact .error e

theorem Related.bind {R : α → β → Prop} {S : γ → δ → Prop} {x : Except ε α} {y : Except ε β}
    (h : Related R x y) {f : α → Except ε γ} {g : β → Except ε δ}
    (hfg : ∀ a b, R a b → Related S (f a) (g b)) : Related S (x >>= f) (y >>= g) := by
  cases h with
  | ok h => exact hfg _ _ h
  | error e => exact .error e

end Related

/-! ## Two loops side by side -/

section Lockstep

variable {σ' ρ' : Type*}

/-- Bodies that do the same in all states with an invariant. -/
theorem loop_congr {step' : σ → Except ε (Flow σ ρ)} (Inv : σ → Prop)
    (hstep : ∀ s, Inv s → step s = step' s)
    (hnext : ∀ s s', Inv s → step s = .ok (.next s') → Inv s') (hs : Inv s) (n : ℕ) :
    loop step exhausted n s = loop step' exhausted n s := by
  induction n generalizing s with
  | zero => rfl
  | succ n ih =>
      rw [loop, loop, ← hstep s hs]
      cases hround : step s with
      | error e => rfl
      | ok flow =>
          cases flow with
          | next s' => exact ih (hnext s s' hs hround)
          | done r => rfl

/-- Both rounds go on, or both are the last ones. -/
inductive FlowRelated (R : σ → σ' → Prop) (S : ρ → ρ' → Prop) : Flow σ ρ → Flow σ' ρ' → Prop where
  | next {s : σ} {s' : σ'} (h : R s s') : FlowRelated R S (.next s) (.next s')
  | done {r : ρ} {r' : ρ'} (h : S r r') : FlowRelated R S (.done r) (.done r')

theorem FlowRelated.mono {R : σ → σ' → Prop} {S S' : ρ → ρ' → Prop}
    (hS : ∀ r r', S r r' → S' r r') {f : Flow σ ρ} {f' : Flow σ' ρ'} (h : FlowRelated R S f f') :
    FlowRelated R S' f f' := by
  cases h with
  | next hs => exact .next hs
  | done hr => exact .done (hS _ _ hr)

/-- The rule of two loops whose rounds do the same to related states. -/
theorem loop_related {step' : σ' → Except ε (Flow σ' ρ')} (R : σ → σ' → Prop) (S : ρ → ρ' → Prop)
    (hstep : ∀ s s', R s s' → Related (FlowRelated R S) (step s) (step' s')) {s' : σ'}
    (hs : R s s') (n : ℕ) :
    Related S (loop step exhausted n s) (loop step' exhausted n s') := by
  induction n generalizing s s' with
  | zero => exact .error exhausted
  | succ n ih =>
      have hround := hstep s s' hs
      rw [loop, loop]
      generalize step s = x at hround ⊢
      generalize step' s' = y at hround ⊢
      cases hround with
      | error e => exact .error e
      | ok hflow =>
          cases hflow with
          | next hs' => exact ih hs'
          | done hr => exact .ok hr

/-- Whatever the loop ends with behind this round has the property `P`. -/
def FlowLeads (step : σ → Except ε (Flow σ ρ)) (exhausted : ε) (P : ρ → Prop) : Flow σ ρ → Prop
  | .next s => ∀ n r, loop step exhausted n s = .ok r → P r
  | .done r => P r

theorem FlowLeads.mono {P Q : ρ → Prop} (hPQ : ∀ r, P r → Q r) {flow : Flow σ ρ}
    (h : FlowLeads step exhausted P flow) : FlowLeads step exhausted Q flow := by
  cases flow with
  | next s => exact fun n r hr => hPQ r (h n r hr)
  | done r => exact hPQ r h

theorem FlowLeads.of_loop {P : ρ → Prop} {flow : Flow σ ρ} (h : FlowLeads step exhausted P flow)
    (hround : step s = .ok flow) (hloop : loop step exhausted (n + 1) s = .ok r) : P r := by
  cases flow with
  | next s' =>
      rw [loop_of_next hround] at hloop
      exact h n r hloop
  | done r' =>
      rw [loop_of_done hround] at hloop
      cases hloop
      exact h

/-- The rule of two loops with related states: each pair of rounds keeps the relation, or one
of the two loops is bound to end with a result that is related to all. -/
theorem loop_lockstep {step' : σ' → Except ε (Flow σ' ρ')} {exhausted' : ε}
    (R : σ → σ' → Prop) (S : ρ → ρ' → Prop)
    (hstep : ∀ s s' f f', R s s' → step s = .ok f → step' s' = .ok f' →
      FlowRelated R S f f' ∨ FlowLeads step exhausted (fun r => ∀ r', S r r') f ∨
        FlowLeads step' exhausted' (fun r' => ∀ r, S r r') f')
    {s' : σ'} {r' : ρ'} (hs : R s s')
    (h : loop step exhausted n s = .ok r) (h' : loop step' exhausted' n s' = .ok r') : S r r' := by
  induction n generalizing s s' with
  | zero =>
      rw [loop_zero] at h
      cases h
  | succ n ih =>
      cases hf : step s with
      | error e =>
          rw [loop_of_error hf] at h
          cases h
      | ok f =>
          cases hf' : step' s' with
          | error e =>
              rw [loop_of_error hf'] at h'
              cases h'
          | ok f' =>
              rcases hstep s s' f f' hs hf hf' with hrelated | hleads | hleads
              · cases hrelated with
                | next hs' =>
                    rw [loop_of_next hf] at h
                    rw [loop_of_next hf'] at h'
                    exact ih hs' h h'
                | done hr =>
                    rw [loop_of_done hf] at h
                    rw [loop_of_done hf'] at h'
                    cases h
                    cases h'
                    exact hr
              · exact hleads.of_loop hf h r'
              · exact hleads.of_loop hf' h' r

end Lockstep

end Loop

/-!
## Simulation

A computation simulates another one if it has a result wherever that has one, and the results
are related. Where the other one faults nothing is asked.
-/

namespace Loop

universe u v

variable {ε : Type*} {α γ : Type u} {β δ : Type v}

/-- The computation on the left has a related result, unless the one on the right faults. -/
inductive Simulates (R : α → β → Prop) : Except ε α → Except ε β → Prop where
  | ok {a : α} {b : β} (h : R a b) : Simulates R (.ok a) (.ok b)
  | fault (x : Except ε α) (e : ε) : Simulates R x (.error e)

theorem Simulates.exists_ok {R : α → β → Prop} {x : Except ε α} {b : β}
    (h : Simulates R x (.ok b)) : ∃ a, x = .ok a ∧ R a b := by
  cases h with
  | ok h => exact ⟨_, rfl, h⟩

theorem Simulates.bind {R : α → β → Prop} {S : γ → δ → Prop} {x : Except ε α} {y : Except ε β}
    (h : Simulates R x y) {f : α → Except ε γ} {g : β → Except ε δ}
    (hfg : ∀ a b, R a b → Simulates S (f a) (g b)) : Simulates S (x >>= f) (y >>= g) := by
  cases h with
  | ok h => exact hfg _ _ h
  | fault x e => exact .fault _ e

theorem Simulates.refl (x : Except ε α) : Simulates Eq x x := by
  cases x with
  | ok a => exact .ok rfl
  | error e => exact .fault _ e

/-- What is known of the result on the right. -/
theorem Simulates.and_right {R : α → β → Prop} {P : β → Prop} {x : Except ε α} {y : Except ε β}
    (h : Simulates R x y) (hy : Sat (fun _ => True) P y) :
    Simulates (fun a b => R a b ∧ P b) x y := by
  cases h with
  | ok h => exact .ok ⟨h, hy⟩
  | fault x e => exact .fault x e

section Loops

variable {σ ρ σ' ρ' : Type*} {step : σ → Except ε (Flow σ ρ)} {step' : σ' → Except ε (Flow σ' ρ')}
  {exhausted exhausted' : ε}

/-- The rule of loops: each round simulates the one on the right. -/
theorem loop_simulates (R : σ → σ' → Prop) (S : ρ → ρ' → Prop)
    (hstep : ∀ s s', R s s' → Simulates (FlowRelated R S) (step s) (step' s')) {s' : σ'}
    (hs : R s s') (n : ℕ) :
    Simulates S (loop step exhausted n s) (loop step' exhausted' n s') := by
  induction n generalizing s s' with
  | zero => exact .fault _ _
  | succ n ih =>
      have hround := hstep s s' hs
      cases hright : step' s' with
      | error e =>
          rw [loop_of_error hright]
          exact .fault _ e
      | ok flow' =>
          rw [hright] at hround
          obtain ⟨flow, hleft, hflow⟩ := hround.exists_ok
          cases hflow with
          | next hnext =>
              rw [loop_of_next hleft, loop_of_next hright]
              exact ih hnext
          | done hdone =>
              rw [loop_of_done hleft, loop_of_done hright]
              exact .ok hdone

end Loops

end Loop
