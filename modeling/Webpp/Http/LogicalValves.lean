import Mathlib.Data.Bool.Basic

/-!
# Logical valves

`&&`, `||` and `!` build valves from valves. Which valve they build is decided by the types
of the operands: operands of one type are taken for the same valve, and an operand whose
type is `not_valve` of the other one's type for its negation.
-/

namespace Webpp.Http

/-- The type of a valve that is built from callables whose types are in `τ`. -/
inductive ValveType (τ : Type) where
  | base (type : τ)
  | notValve (next : ValveType τ)
  | negativeValve (next : ValveType τ)
  | positiveValve (next : ValveType τ)
  | andValve (lhs rhs : ValveType τ)
  | orValve (lhs rhs : ValveType τ)
  deriving DecidableEq

/-- A valve that is built from callables in `β`. -/
inductive Valve (β : Type) where
  | base (callable : β)
  | notValve (next : Valve β)
  | negativeValve (next : Valve β)
  | positiveValve (next : Valve β)
  | andValve (lhs rhs : Valve β)
  | orValve (lhs rhs : Valve β)
  deriving DecidableEq

/-- Callables that return a `bool` and leave the context as it is. -/
structure Predicates (β τ κ : Type) where
  typeOf : β → τ
  call : β → κ → Bool

namespace Valve

variable {β τ κ : Type}

def type (D : Predicates β τ κ) : Valve β → ValveType τ
  | base callable => .base (D.typeOf callable)
  | notValve next => .notValve (next.type D)
  | negativeValve next => .negativeValve (next.type D)
  | positiveValve next => .positiveValve (next.type D)
  | andValve lhs rhs => .andValve (lhs.type D) (rhs.type D)
  | orValve lhs rhs => .orValve (lhs.type D) (rhs.type D)

/-- `call_set_get`: what a valve returns, and the callables that are called for it in their
order. A `bool` sets no response. -/
def callSetGet (D : Predicates β τ κ) (ctx : κ) : Valve β → Bool × List β
  | base callable => (D.call callable ctx, [callable])
  | notValve next =>
      let ret := next.callSetGet D ctx
      (!ret.1, ret.2)
  | negativeValve next => (false, (next.callSetGet D ctx).2)
  | positiveValve next => (true, (next.callSetGet D ctx).2)
  | andValve lhs rhs =>
      let left := lhs.callSetGet D ctx
      if left.1 then
        let right := rhs.callSetGet D ctx
        (right.1, left.2 ++ right.2)
      else (false, left.2)
  | orValve lhs rhs =>
      let left := lhs.callSetGet D ctx
      if !left.1 then
        let right := rhs.callSetGet D ctx
        (right.1, left.2 ++ right.2)
      else (false, left.2)

def answer (D : Predicates β τ κ) (ctx : κ) (v : Valve β) : Bool := (v.callSetGet D ctx).1

def calls (D : Predicates β τ κ) (ctx : κ) (v : Valve β) : List β := (v.callSetGet D ctx).2

variable [DecidableEq τ]

/-- `operator&&`. -/
def operatorAnd (D : Predicates β τ κ) (valve callable : Valve β) : Valve β :=
  if valve.type D = callable.type D then valve
  else if .notValve (valve.type D) = callable.type D then negativeValve valve
  else if valve.type D = .notValve (callable.type D) then negativeValve callable
  else andValve valve callable

/-- `operator||`. -/
def operatorOr (D : Predicates β τ κ) (valve callable : Valve β) : Valve β :=
  if valve.type D = callable.type D then valve
  else if .notValve (valve.type D) = callable.type D then positiveValve valve
  else if valve.type D = .notValve (callable.type D) then positiveValve callable
  else orValve valve callable

/-- `operator!`: every `not_valve` returns a `bool`, so it is unwrapped. -/
def operatorNot : Valve β → Valve β
  | notValve next => next
  | valve => notValve valve

/-! ## The run-time valves -/

variable {D : Predicates β τ κ} {ctx : κ} {P Q : Valve β}

omit [DecidableEq τ]

theorem answer_andValve :
    (andValve P Q).answer D ctx = (P.answer D ctx && Q.answer D ctx) := by
  rw [answer, callSetGet, ← answer]
  cases P.answer D ctx with
  | false => rfl
  | true => rfl

/-- The branch in which the left operand decides returns `false`. -/
theorem answer_orValve :
    (orValve P Q).answer D ctx = (!P.answer D ctx && Q.answer D ctx) := by
  rw [answer, callSetGet, ← answer]
  cases P.answer D ctx with
  | false => rfl
  | true => rfl

theorem calls_andValve (h : P.answer D ctx = false) :
    (andValve P Q).calls D ctx = P.calls D ctx := by
  rw [calls, callSetGet, ← answer, h]
  rfl

theorem answer_operatorNot : P.operatorNot.answer D ctx = !P.answer D ctx := by
  cases P with
  | notValve next => exact (Bool.not_not _).symm
  | _ => rfl

theorem calls_operatorNot : P.operatorNot.calls D ctx = P.calls D ctx := by
  cases P with
  | _ => rfl

end Valve

/-! ## The connectives -/

inductive Connective where
  | and
  | or
  | not
  deriving DecidableEq

namespace Connective

variable {β τ κ : Type} [DecidableEq τ]

/-- The valve that the operator builds; `!` has no right operand. -/
def build (D : Predicates β τ κ) : Connective → Valve β → Valve β → Valve β
  | and, P, Q => P.operatorAnd D Q
  | or, P, Q => P.operatorOr D Q
  | not, P, _ => P.operatorNot

/-- The valve without any rewrite. -/
def unsimplified : Connective → Valve β → Valve β → Valve β
  | and, P, Q => .andValve P Q
  | or, P, Q => .orValve P Q
  | not, P, _ => .notValve P

/-- What the connective is meant to return. -/
def eval : Connective → Bool → Bool → Bool
  | and, p, q => p && q
  | or, p, q => p || q
  | not, p, _ => !p

/-- The left operand decides. -/
def Decides : Connective → Bool → Prop
  | and, p => p = false
  | or, p => p = true
  | not, _ => True

/-- On this context, the valve that the operator builds returns what the connective says,
calls no more than the left operand where that one decides, and returns what the valve
without rewrites does. -/
structure Connects (D : Predicates β τ κ) (op : Connective) (P Q : Valve β) (ctx : κ) :
    Prop where
  answer : (op.build D P Q).answer D ctx = op.eval (P.answer D ctx) (Q.answer D ctx)
  calls : op.Decides (P.answer D ctx) → (op.build D P Q).calls D ctx = P.calls D ctx
  unsimplified : (op.build D P Q).answer D ctx = (op.unsimplified P Q).answer D ctx

/-- Operands of one type have to agree as far as `&&` and `||` can tell, and operands of
opposite types have to be opposite. The run-time `or_valve` needs its left operand to be
`false`. -/
def Agree (D : Predicates β τ κ) (op : Connective) (P Q : Valve β) (ctx : κ) : Prop :=
  match op with
  | and =>
      if P.type D = Q.type D then P.answer D ctx = true → Q.answer D ctx = true
      else if .notValve (P.type D) = Q.type D then
        P.answer D ctx = true → Q.answer D ctx = false
      else if P.type D = .notValve (Q.type D) then
        (P.answer D ctx = true → Q.answer D ctx = false) ∧
          (P.answer D ctx = false → Q.calls D ctx = P.calls D ctx)
      else True
  | or =>
      if P.type D = Q.type D then P.answer D ctx = false ∧ Q.answer D ctx = false
      else if .notValve (P.type D) = Q.type D ∨ P.type D = .notValve (Q.type D) then
        P.answer D ctx = false ∧ Q.answer D ctx = true
      else P.answer D ctx = false
  | not => True

variable {D : Predicates β τ κ} {P Q : Valve β} {ctx : κ}

theorem connects_and_iff : Connects D and P Q ctx ↔ Agree D and P Q ctx := by
  have hiff : Connects D and P Q ctx ↔
      (P.operatorAnd D Q).answer D ctx = (P.answer D ctx && Q.answer D ctx) ∧
        (P.answer D ctx = false → (P.operatorAnd D Q).calls D ctx = P.calls D ctx) := by
    constructor
    · intro h
      exact ⟨h.answer, h.calls⟩
    · rintro ⟨hanswer, hcalls⟩
      exact ⟨hanswer, hcalls, hanswer.trans Valve.answer_andValve.symm⟩
  rw [hiff, Agree, Valve.operatorAnd]
  split
  · cases P.answer D ctx <;> cases Q.answer D ctx <;> simp
  · split
    · change false = _ ∧ (_ → P.calls D ctx = P.calls D ctx) ↔ _
      cases P.answer D ctx <;> cases Q.answer D ctx <;> simp
    · split
      · change false = _ ∧ (_ → Q.calls D ctx = P.calls D ctx) ↔ _
        cases P.answer D ctx <;> cases Q.answer D ctx <;> simp
      · exact iff_true_intro ⟨Valve.answer_andValve, Valve.calls_andValve⟩

theorem connects_or_iff : Connects D or P Q ctx ↔ Agree D or P Q ctx := by
  have hiff : Connects D or P Q ctx ↔ P.answer D ctx = false ∧
      (P.operatorOr D Q).answer D ctx = Q.answer D ctx := by
    constructor
    · intro h
      have hanswer : _ = (P.answer D ctx || Q.answer D ctx) := h.answer
      have hplain : _ = (Valve.orValve P Q).answer D ctx := h.unsimplified
      rw [Valve.answer_orValve] at hplain
      rw [hanswer] at hplain
      cases hp : P.answer D ctx with
      | false =>
          rw [hp] at hanswer
          exact ⟨rfl, hanswer⟩
      | true =>
          rw [hp] at hplain
          exact absurd hplain.symm Bool.false_ne_true
    · rintro ⟨hp, hq⟩
      refine ⟨?_, fun h => absurd (hp.symm.trans h) Bool.false_ne_true, ?_⟩
      · change _ = (P.answer D ctx || Q.answer D ctx)
        rw [hp]
        exact hq
      · change _ = (Valve.orValve P Q).answer D ctx
        rw [Valve.answer_orValve, hp]
        exact hq
  rw [hiff, Agree, Valve.operatorOr]
  by_cases hsame : P.type D = Q.type D
  · rw [if_pos hsame, if_pos hsame]
    constructor
    · rintro ⟨hp, hq⟩
      exact ⟨hp, hq.symm.trans hp⟩
    · rintro ⟨hp, hq⟩
      exact ⟨hp, hp.trans hq.symm⟩
  · rw [if_neg hsame, if_neg hsame]
    by_cases hright : .notValve (P.type D) = Q.type D
    · rw [if_pos hright, if_pos (.inl hright)]
      exact and_congr_right fun _ => eq_comm
    · rw [if_neg hright]
      by_cases hleft : P.type D = .notValve (Q.type D)
      · rw [if_pos hleft, if_pos (.inr hleft)]
        exact and_congr_right fun _ => eq_comm
      · rw [if_neg hleft, if_neg (not_or.mpr ⟨hright, hleft⟩)]
        constructor
        · exact And.left
        · intro hp
          refine ⟨hp, ?_⟩
          rw [Valve.answer_orValve, hp]
          rfl

theorem connects_not : Connects D not P Q ctx :=
  ⟨Valve.answer_operatorNot, fun _ => Valve.calls_operatorNot, Valve.answer_operatorNot⟩

end Connective

/-! ## Method valves -/

/-- The valves of type `method`, on the method of a request. -/
def method : Predicates (List Char) Unit (List Char) where
  typeOf _ := ()
  call methodStr method := method == methodStr

def get : Valve (List Char) := .base ['G', 'E', 'T']

def post : Valve (List Char) := .base ['P', 'O', 'S', 'T']

end Webpp.Http
