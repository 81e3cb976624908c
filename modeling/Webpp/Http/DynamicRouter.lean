import Webpp.Http.ValveTraits

/-!
# The dynamic router

The router calls its routes one after the other until the response is not empty. A route
that answers with a status code only, or with an empty text, leaves it empty, and the router
goes on as if the route had not answered.
-/

namespace Webpp.Http

variable {ρ : Type} [HttpRequest ρ]

/-! ## The router -/

/-- `error`. -/
def errorResponse (code : ℕ) : Response := { statusCode := code }

/-- What the loop over the routes leaves: the context, the routes that it did not run, and
the contexts that it called routes with. -/
structure Dispatch (ρ : Type) where
  ctx : Context ρ
  notRun : List (Route ρ)
  calls : List (Context ρ)

/-- The loop over the routes. -/
def dispatch : List (Route ρ) → Context ρ → Dispatch ρ
  | [], ctx => ⟨{ ctx with response := errorResponse statusNotFound }, [], []⟩
  | route :: routes, ctx =>
      let start := ctx.currentRoute
      let ctx := (route.call start).2
      if !ctx.response.empty then ⟨ctx, routes, [start]⟩
      else
        let d := dispatch routes ctx
        { d with calls := start :: d.calls }

/-- `operator()` on a request. -/
def dynamicRouter (routes : List (Route ρ)) (request : ρ) : Response :=
  let ctx := (dispatch routes (Context.ofRequest request)).ctx
  if ctx.response.empty then errorResponse statusNotFound else ctx.response

/-! ## What it is for -/

/-- The response of the first route that answers, and the routes behind it. The routes
before it are called, too. -/
def firstAnswer : List (Route ρ) → Context ρ → Option (Response × List (Route ρ))
  | [], _ => none
  | route :: routes, ctx =>
      let start := ctx.currentRoute
      let ctx := (route.call start).2
      if route.answers start then some (ctx.response, routes) else firstAnswer routes ctx

/-- The router answers with the response of the first route that answers and runs no later
ones, with 404 exactly when there is no such route, and every route begins at the first
segment. -/
structure Serves (routes : List (Route ρ)) (request : ρ) : Prop where
  answer : ∀ res rest, firstAnswer routes (Context.ofRequest request) = some (res, rest) →
    dynamicRouter routes request = res ∧
      (dispatch routes (Context.ofRequest request)).notRun = rest
  notFound : (dynamicRouter routes request).statusCode = statusNotFound ↔
    firstAnswer routes (Context.ofRequest request) = none
  beginning : ∀ ctx ∈ (dispatch routes (Context.ofRequest request)).calls,
    ctx.atBeginning = true

/-- The first route that answers leaves a response that is not empty and whose status is not
404; a route before it leaves the response empty. (A handler can also write to the response
without returning a value; then it has to be a 404 that no route would answer.) -/
def Settles : List (Route ρ) → Context ρ → Prop
  | [], _ => True
  | route :: routes, ctx =>
      let start := ctx.currentRoute
      let ctx := (route.call start).2
      if route.answers start then
        ctx.response.empty = false ∧ ctx.response.statusCode ≠ statusNotFound
      else if ctx.response.empty then Settles routes ctx
      else ctx.response.statusCode = statusNotFound ∧ firstAnswer routes ctx = none

/-! ## The loop -/

theorem dispatch_response_of_empty (routes : List (Route ρ)) (ctx : Context ρ)
    (h : (dispatch routes ctx).ctx.response.empty = true) :
    (dispatch routes ctx).ctx.response = errorResponse statusNotFound := by
  induction routes generalizing ctx with
  | nil => rfl
  | cons route routes ih =>
      rw [dispatch] at h ⊢
      simp only at h ⊢
      split at h
      · rename_i hempty
        rw [h] at hempty
        cases hempty
      · rename_i hempty
        rw [if_neg hempty]
        exact ih _ h

theorem dynamicRouter_eq (routes : List (Route ρ)) (request : ρ) :
    dynamicRouter routes request =
      (dispatch routes (Context.ofRequest request)).ctx.response := by
  rw [dynamicRouter]
  split
  · rename_i hempty
    exact (dispatch_response_of_empty routes _ hempty).symm
  · rfl

theorem dispatch_calls (routes : List (Route ρ)) (ctx : Context ρ) :
    ∀ c ∈ (dispatch routes ctx).calls, c.atBeginning = true := by
  induction routes generalizing ctx with
  | nil => exact fun c hc => absurd hc List.not_mem_nil
  | cons route routes ih =>
      intro c hc
      rw [dispatch] at hc
      simp only at hc
      split at hc
      · rw [List.mem_singleton.mp hc]
        rfl
      · rcases List.mem_cons.mp hc with rfl | hc
        · rfl
        · exact ih _ c hc

theorem dispatch_notRun_length (routes : List (Route ρ)) (ctx : Context ρ) :
    (dispatch routes ctx).notRun.length ≤ routes.length - 1 := by
  induction routes generalizing ctx with
  | nil => exact Nat.le_refl _
  | cons route routes ih =>
      rw [dispatch]
      simp only
      split
      · exact Nat.le_refl _
      · exact Nat.le_trans (ih _) (Nat.sub_le _ _)

theorem firstAnswer_rest_length {routes rest : List (Route ρ)} {ctx : Context ρ}
    {res : Response} (h : firstAnswer routes ctx = some (res, rest)) :
    rest.length < routes.length := by
  induction routes generalizing ctx with
  | nil => cases h
  | cons route routes ih =>
      rw [firstAnswer] at h
      split at h
      · cases h
        exact Nat.lt_succ_self _
      · exact Nat.lt_succ_of_lt (ih h)

/-- The same for the loop from any context. -/
def ServesFrom (routes : List (Route ρ)) (ctx : Context ρ) : Prop :=
  (∀ res rest, firstAnswer routes ctx = some (res, rest) →
    (dispatch routes ctx).ctx.response = res ∧ (dispatch routes ctx).notRun = rest) ∧
  ((dispatch routes ctx).ctx.response.statusCode = statusNotFound ↔
    firstAnswer routes ctx = none)

theorem servesFrom_iff (routes : List (Route ρ)) (ctx : Context ρ) :
    ServesFrom routes ctx ↔ Settles routes ctx := by
  induction routes generalizing ctx with
  | nil =>
      refine iff_of_true ⟨fun res rest h => ?_, iff_of_true rfl rfl⟩ trivial
      cases h
  | cons route routes ih =>
      rw [ServesFrom, Settles, firstAnswer, dispatch]
      simp only
      generalize hctx : (route.call ctx.currentRoute).2 = ctx'
      cases hanswers : route.answers ctx.currentRoute with
      | true =>
          rw [if_pos rfl, if_pos rfl]
          cases hempty : ctx'.response.empty with
          | false =>
              rw [if_pos (show (!false) = true from rfl)]
              constructor
              · rintro ⟨-, hstatus⟩
                exact ⟨rfl, fun h => Option.some_ne_none _ (hstatus.mp h)⟩
              · rintro ⟨-, hstatus⟩
                refine ⟨fun res rest h => ?_, iff_of_false hstatus (Option.some_ne_none _)⟩
                cases h
                exact ⟨rfl, rfl⟩
          | true =>
              -- The loop goes on: the next routes are run, or the answer is 404.
              rw [if_neg (show ¬ (!true) = true from Bool.false_ne_true)]
              refine iff_of_false ?_ fun h => Bool.false_ne_true h.1.symm
              rintro ⟨hanswer, hstatus⟩
              obtain ⟨hres, hrest⟩ := hanswer _ _ rfl
              simp only at hres hrest hstatus
              have hlength := dispatch_notRun_length routes ctx'
              rw [hrest] at hlength
              have hnil : routes = [] := by
                cases routes with
                | nil => rfl
                | cons r rs => exact absurd hlength (Nat.not_succ_le_self _)
              rw [hnil] at hstatus
              exact Option.some_ne_none _ (hstatus.mp rfl)
      | false =>
          rw [if_neg Bool.false_ne_true, if_neg Bool.false_ne_true]
          cases hempty : ctx'.response.empty with
          | true =>
              rw [if_neg (show ¬ (!true) = true from Bool.false_ne_true), if_pos rfl]
              exact ih ctx'
          | false =>
              rw [if_pos (show (!false) = true from rfl), if_neg Bool.false_ne_true]
              constructor
              · rintro ⟨hanswer, hstatus⟩
                have hnone : firstAnswer routes ctx' = none := by
                  cases hfirst : firstAnswer routes ctx' with
                  | none => rfl
                  | some answer =>
                      have hlt := firstAnswer_rest_length hfirst
                      have hrest := (hanswer answer.1 answer.2 hfirst).2
                      rw [← hrest] at hlt
                      exact absurd hlt (Nat.lt_irrefl _)
                exact ⟨hstatus.mpr hnone, hnone⟩
              · rintro ⟨hstatus, hnone⟩
                refine ⟨fun res rest h => ?_, iff_of_true hstatus hnone⟩
                rw [hnone] at h
                cases h

/-- The router serves a request as it should exactly when the first route that answers
leaves a response that can be seen. -/
theorem serves_iff (routes : List (Route ρ)) (request : ρ) :
    Serves routes request ↔ Settles routes (Context.ofRequest request) := by
  rw [← servesFrom_iff]
  constructor
  · intro h
    have hanswer := h.answer
    have hstatus := h.notFound
    rw [dynamicRouter_eq] at hanswer hstatus
    exact ⟨hanswer, hstatus⟩
  · rintro ⟨hanswer, hstatus⟩
    refine ⟨?_, ?_, dispatch_calls routes _⟩
    · rw [dynamicRouter_eq]
      exact hanswer
    · rw [dynamicRouter_eq]
      exact hstatus

/-- A route whose handler returns the status code 201. -/
def createdRoute : Route PlainRequest := ⟨[.root], [fun ctx => (.statusCode 201, ctx)]⟩

/-- The status code of a handler is lost. -/
theorem not_serves_created :
    ¬ ∀ (routes : List (Route PlainRequest)) (request : PlainRequest),
      Serves routes request := by
  intro h
  have hstatus := (h [createdRoute] ⟨['G', 'E', 'T'], []⟩).notFound.mp rfl
  cases hstatus

end Webpp.Http
