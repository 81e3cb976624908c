import Webpp.Http.DynamicRouter

/-!
# The static router

The static router calls its routes as the valves of one chain. A route that does not match
ends the chain, one whose handlers let the route go on does not, and no route begins at the
first segment but the first one.
-/

namespace Webpp.Http

variable {ρ : Type} [HttpRequest ρ]

/-- A route as a valve: a `forward_valve` returns a `bool`. -/
def Route.callable (route : Route ρ) : Callable ρ := fun ctx =>
  let ret := route.call ctx
  (.bool ret.1, ret.2)

/-- An empty response gets the status 404. -/
def orNotFound (res : Response) : Response :=
  if res.empty then { res with statusCode := statusNotFound } else res

/-- `operator()` on a request. -/
def staticRouter (routes : List (Route ρ)) (request : ρ) : Response :=
  orNotFound (forwardValve (routes.map Route.callable) (Context.ofRequest request)).2.response

/-- What can be compared of two responses: the status code and the body. -/
def Response.view (res : Response) : ℕ × List Char := (res.statusCode, res.body)

/-- Both routers return the same status code and body. -/
def RoutersAgree (routes : List (Route ρ)) (request : ρ) : Prop :=
  (staticRouter routes request).view = (dynamicRouter routes request).view

/-! ## When they agree -/

/-- The first route that leaves a response, called from the first segment, has this status
and body; where there is none, it is a 404 without a body. -/
def FoundFromStart (view : ℕ × List Char) : List (Route ρ) → Context ρ → Prop
  | [], _ => (statusNotFound, []) = view
  | route :: routes, ctx =>
      let ctx := (route.call ctx.currentRoute).2
      if ctx.response.empty then FoundFromStart view routes ctx else ctx.response.view = view

/-- The routes, called one behind the other as long as their chains come to their ends,
leave this status and body. -/
def KeptByChain (view : ℕ × List Char) : List (Route ρ) → Context ρ → Prop
  | [], ctx => (orNotFound ctx.response).view = view
  | route :: routes, ctx =>
      let ret := route.call ctx
      if ret.1 then KeptByChain view routes ret.2 else (orNotFound ret.2.response).view = view

/-- The routes are called in their order, once where the route before has left the path and
once from the first segment. At the first route whose chain breaks off in the one call, or
that leaves a response in the other, the rest has to make up for it: where the chain breaks
off without such a response, later routes must not find anything else from the first
segment, and where it goes on behind a response, they must keep that one. -/
def Parallel : List (Route ρ) → Context ρ → Context ρ → Prop
  | [], chained, _ => (orNotFound chained.response).view = (statusNotFound, [])
  | route :: routes, chained, ctx =>
      let ret := route.call chained
      let ctx := (route.call ctx.currentRoute).2
      match ret.1, ctx.response.empty with
      | false, false => (orNotFound ret.2.response).view = ctx.response.view
      | false, true => FoundFromStart (orNotFound ret.2.response).view routes ctx
      | true, false => KeptByChain ctx.response.view routes ret.2
      | true, true => Parallel routes ret.2 ctx

/-! ## The two loops -/

theorem forwardValve_route (route : Route ρ) (routes : List (Route ρ)) (ctx : Context ρ) :
    forwardValve ((route :: routes).map Route.callable) ctx =
      if (route.call ctx).1 then forwardValve (routes.map Route.callable) (route.call ctx).2
      else (false, (route.call ctx).2) := rfl

theorem foundFromStart_iff (view : ℕ × List Char) (routes : List (Route ρ)) (ctx : Context ρ) :
    FoundFromStart view routes ctx ↔ (dispatch routes ctx).ctx.response.view = view := by
  induction routes generalizing ctx with
  | nil => exact Iff.rfl
  | cons route routes ih =>
      rw [FoundFromStart, dispatch]
      simp only
      cases hempty : (route.call ctx.currentRoute).2.response.empty with
      | true =>
          rw [if_pos rfl, if_neg (show ¬ (!true) = true from Bool.false_ne_true)]
          exact ih _
      | false =>
          rw [if_neg Bool.false_ne_true, if_pos (show (!false) = true from rfl)]

theorem keptByChain_iff (view : ℕ × List Char) (routes : List (Route ρ)) (ctx : Context ρ) :
    KeptByChain view routes ctx ↔
      (orNotFound (forwardValve (routes.map Route.callable) ctx).2.response).view = view := by
  induction routes generalizing ctx with
  | nil => exact Iff.rfl
  | cons route routes ih =>
      rw [KeptByChain, forwardValve_route]
      cases hret : (route.call ctx).1 with
      | true =>
          rw [if_pos rfl, if_pos rfl]
          exact ih _
      | false => rw [if_neg Bool.false_ne_true, if_neg Bool.false_ne_true]

theorem parallel_iff (routes : List (Route ρ)) (chained ctx : Context ρ) :
    (orNotFound (forwardValve (routes.map Route.callable) chained).2.response).view =
        (dispatch routes ctx).ctx.response.view ↔
      Parallel routes chained ctx := by
  induction routes generalizing chained ctx with
  | nil => exact Iff.rfl
  | cons route routes ih =>
      rw [Parallel, forwardValve_route, dispatch]
      simp only
      cases hret : (route.call chained).1 with
      | true =>
          rw [if_pos rfl]
          cases hempty : (route.call ctx.currentRoute).2.response.empty with
          | true =>
              rw [if_neg (show ¬ (!true) = true from Bool.false_ne_true)]
              exact ih _ _
          | false =>
              rw [if_pos (show (!false) = true from rfl)]
              exact (keptByChain_iff _ _ _).symm
      | false =>
          rw [if_neg Bool.false_ne_true]
          cases hempty : (route.call ctx.currentRoute).2.response.empty with
          | true =>
              rw [if_neg (show ¬ (!true) = true from Bool.false_ne_true)]
              exact eq_comm.trans (foundFromStart_iff _ _ _).symm
          | false => rw [if_pos (show (!false) = true from rfl)]

/-- A page: one segment, and a handler that returns a literal. -/
def pageRoute (segment text : List Char) : Route PlainRequest :=
  ⟨[.root, .segmentString segment], [fun ctx => (.literal text, ctx)]⟩

end Webpp.Http
