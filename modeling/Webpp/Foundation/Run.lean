import Mathlib.Data.List.Basic

/-!
# Runs of a step function

`run step s as` is the state a machine with the step function `step` reaches
from `s` on the inputs `as`. `AtEach step P s as` says that `P` holds of every
step of that run, reading the state before the step and its input; the current
state is carried along explicitly, and `atEach_iff_forall` is the form that
splits the inputs instead. The rules at the end turn a fact about one step into
a fact about all runs.
-/

namespace Run

variable {σ α : Type*}

/-- The state reached from `s` after the inputs `as`. -/
def run (step : σ → α → σ) (s : σ) (as : List α) : σ := as.foldl step s

@[simp] theorem run_nil (step : σ → α → σ) (s : σ) : run step s [] = s := rfl

@[simp] theorem run_cons (step : σ → α → σ) (s : σ) (a : α) (as : List α) :
    run step s (a :: as) = run step (step s a) as := rfl

theorem run_append (step : σ → α → σ) (s : σ) (as bs : List α) :
    run step s (as ++ bs) = run step (run step s as) bs :=
  List.foldl_append

/-- `P` holds at each step of the run of `as` from `s`. -/
def AtEach (step : σ → α → σ) (P : σ → α → Prop) : σ → List α → Prop
  | _, [] => True
  | s, a :: as => P s a ∧ AtEach step P (step s a) as

@[simp] theorem atEach_nil (step : σ → α → σ) (P : σ → α → Prop) (s : σ) :
    AtEach step P s [] := trivial

theorem atEach_cons (step : σ → α → σ) (P : σ → α → Prop) (s : σ) (a : α)
    (as : List α) :
    AtEach step P s (a :: as) ↔ P s a ∧ AtEach step P (step s a) as := Iff.rfl

theorem atEach_append (step : σ → α → σ) (P : σ → α → Prop) (s : σ)
    (as bs : List α) :
    AtEach step P s (as ++ bs) ↔
      AtEach step P s as ∧ AtEach step P (run step s as) bs := by
  induction as generalizing s with
  | nil => simp
  | cons a as ih =>
      rw [List.cons_append, atEach_cons, atEach_cons, ih, run_cons, and_assoc]

/-- A property at each step, read at one split of the inputs. -/
theorem atEach_iff_forall (step : σ → α → σ) (P : σ → α → Prop) (s : σ)
    (as : List α) :
    AtEach step P s as ↔
      ∀ pre a post, as = pre ++ a :: post → P (run step s pre) a := by
  constructor
  · rintro h pre a post rfl
    exact ((atEach_append step P s pre (a :: post)).mp h).2.1
  · intro h
    induction as generalizing s with
    | nil => trivial
    | cons a as ih =>
        refine ⟨h [] a as rfl, ih (step s a) ?_⟩
        rintro pre b post rfl
        exact h (a :: pre) b post rfl

theorem atEach_of_forall {step : σ → α → σ} {P : σ → α → Prop} (h : ∀ s a, P s a) (s : σ)
    (as : List α) : AtEach step P s as := by
  induction as generalizing s with
  | nil => trivial
  | cons a as ih => exact ⟨h s a, ih (step s a)⟩

section Invariant

variable {step : σ → α → σ} (Inv : σ → Prop) {C P : σ → α → Prop}

/-- Where an invariant makes `P` follow from `C` at one step, `P` holds at each
step of a run that has `C` at each step. -/
theorem atEach_of_invariant (keep : ∀ s a, Inv s → C s a → Inv (step s a))
    (hP : ∀ s a, Inv s → C s a → P s a) {s : σ} {as : List α} (hs : Inv s)
    (h : AtEach step C s as) : AtEach step P s as := by
  induction as generalizing s with
  | nil => trivial
  | cons a as ih => exact ⟨hP s a hs h.1, ih (keep s a hs h.1) h.2⟩

/-- Where an invariant makes `P` and `C` agree at one step, they agree on every
run; the invariant has to be kept only by the steps that meet `C`. -/
theorem atEach_iff_of_invariant (keep : ∀ s a, Inv s → C s a → Inv (step s a))
    (hP : ∀ s a, Inv s → (P s a ↔ C s a)) {s : σ} (hs : Inv s) (as : List α) :
    AtEach step P s as ↔ AtEach step C s as := by
  induction as generalizing s with
  | nil => exact Iff.rfl
  | cons a as ih =>
      rw [atEach_cons, atEach_cons, hP s a hs]
      exact and_congr_right fun hC => ih (keep s a hs hC)

end Invariant

end Run

/-!
## Answers that do not depend on the state

`Settled P m Q` says that a computation on a state gives the same answer from all the states
with `P`, and leaves a state with `Q`. The rules put the answers of a sequence together, so
that a computation that keeps what it finds can be compared with one that starts afresh.
-/

section Settling

variable {σ α β : Type}

/-- The answer is the same from all the states with `P`, and `Q` holds behind it. -/
def Settled (P : σ → Prop) (m : StateM σ α) (Q : σ → Prop) : Prop :=
  (∀ s s', P s → P s' → (m s).1 = (m s').1) ∧ ∀ s, P s → Q (m s).2

namespace Settled

variable {P P' Q R : σ → Prop} {m m' : StateM σ α}

theorem pure (a : α) : Settled P (pure a : StateM σ α) P :=
  ⟨fun _ _ _ _ => rfl, fun _ hs => hs⟩

theorem bind {k : α → StateM σ β} (h : Settled P m Q) (hk : ∀ a, Settled Q (k a) R) :
    Settled P (m >>= k) R := by
  constructor
  · intro s s' hs hs'
    change (k (m s).1 (m s).2).1 = (k (m s').1 (m s').2).1
    rw [h.1 s s' hs hs']
    exact (hk (m s').1).1 _ _ (h.2 s hs) (h.2 s' hs')
  · intro s hs
    exact (hk (m s).1).2 _ (h.2 s hs)

theorem map (f : α → β) (h : Settled P m Q) : Settled P (f <$> m) Q :=
  ⟨fun s s' hs hs' => congrArg f (h.1 s s' hs hs'), h.2⟩

/-- Reading a part of the state that all the states with `P` share. -/
theorem read {f : σ → α} (h : ∀ s s', P s → P s' → f s = f s') :
    Settled P (do return f (← get)) P :=
  ⟨h, fun _ hs => hs⟩

theorem ite {c : Prop} [Decidable c] (h : Settled P m Q) (h' : Settled P m' Q) :
    Settled P (if c then m else m') Q := by
  split
  · exact h
  · exact h'

/-- Another computation that runs alike from the states with `P`. -/
theorem congr (h : Settled P m Q) (heq : ∀ s, P s → m' s = m s) : Settled P m' Q := by
  constructor
  · intro s s' hs hs'
    rw [heq s hs, heq s' hs']
    exact h.1 s s' hs hs'
  · intro s hs
    rw [heq s hs]
    exact h.2 s hs

theorem weaken (h : Settled P m Q) (hP : ∀ s, P' s → P s) : Settled P' m Q :=
  ⟨fun s s' hs hs' => h.1 s s' (hP s hs) (hP s' hs'), fun s hs => h.2 s (hP s hs)⟩

theorem strengthen (h : Settled P m Q) (hQ : ∀ s, Q s → R s) : Settled P m R :=
  ⟨h.1, fun s hs => hQ _ (h.2 s hs)⟩

end Settled

end Settling
