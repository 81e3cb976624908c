import Webpp.Http.StaticRouter

/-!
# Routers as routes

A router that is a route of another router is called with the context of that one. If no
route of it leaves a response, it does leave one: a 404 without a body. That one is empty, so
the later routes are called, but with the status 404.
-/

namespace Webpp.Http

variable {ρ : Type} [HttpRequest ρ] {routes : List (Route ρ)} {ctx : Context ρ}

/-! ## The call -/

/-- `operator()` on a context returns nothing. -/
def routerCallable (routes : List (Route ρ)) : Callable ρ :=
  fun ctx => (.void, (dispatch routes ctx).ctx)

/-- The route of a router that is added to another router. -/
def Route.ofRouter (routes : List (Route ρ)) : Route ρ := ⟨[], [routerCallable routes]⟩

theorem Route.ofRouter_call (routes : List (Route ρ)) (ctx : Context ρ) :
    (Route.ofRouter routes).call ctx = (true, (dispatch routes ctx).ctx) := rfl

/-- The context that the routes leave, if none of them leaves a response. -/
def passed : List (Route ρ) → Context ρ → Option (Context ρ)
  | [], ctx => some ctx
  | route :: routes, ctx =>
      let ctx := (route.call ctx.currentRoute).2
      if ctx.response.empty then passed routes ctx else none

/-! ## What it is for -/

/-- The router with the sub-router behind the routes `pre` returns the same status and body as
the one with the routes of the sub-router in its place, and a sub-router none of whose routes
match leaves the response as it is. -/
structure ActsInline (pre sub post : List (Route ρ)) (request : ρ) : Prop where
  answer : (dynamicRouter (pre ++ Route.ofRouter sub :: post) request).view =
    (dynamicRouter (pre ++ sub ++ post) request).view
  untouched : ∀ ctx, passed pre (Context.ofRequest request) = some ctx →
    (∀ route ∈ sub, (route.isMatch ctx.currentRoute).1 = false) →
      ((Route.ofRouter sub).call ctx.currentRoute).2.response = ctx.response

/-- The routes leave the same status and body from both contexts: at the first route that
leaves a response from one of them, it leaves the same from the other one, or else the routes
behind it do. -/
def Alike : List (Route ρ) → Context ρ → Context ρ → Prop
  | [], _, _ => True
  | route :: routes, ctx, other =>
      let ctx := (route.call ctx.currentRoute).2
      let other := (route.call other.currentRoute).2
      match ctx.response.empty, other.response.empty with
      | true, true => Alike routes ctx other
      | true, false => FoundFromStart other.response.view routes ctx
      | false, true => FoundFromStart ctx.response.view routes other
      | false, false => ctx.response.view = other.response.view

/-- Where no route before the sub-router and none of its own leaves a response, the routes
behind it do the same with a 404 as without it; and if its routes do not match, the status is
404 already. -/
def NotFoundUnnoticed (pre sub post : List (Route ρ)) (ctx : Context ρ) : Prop :=
  ∀ ctx', passed pre ctx = some ctx' →
    ((∀ route ∈ sub, (route.isMatch ctx'.currentRoute).1 = false) →
      ctx'.response = errorResponse statusNotFound) ∧
    ∀ left, passed sub ctx'.currentRoute = some left →
      Alike post { left with response := errorResponse statusNotFound } left

/-! ## The loop over the routes -/

theorem dispatch_append (pre rest : List (Route ρ)) (ctx : Context ρ) :
    (dispatch (pre ++ rest) ctx).ctx =
      match passed pre ctx with
      | some left => (dispatch rest left).ctx
      | none => (dispatch pre ctx).ctx := by
  induction pre generalizing ctx with
  | nil => rfl
  | cons route pre ih =>
      rw [List.cons_append, dispatch, passed, dispatch]
      simp only
      cases hempty : (route.call ctx.currentRoute).2.response.empty with
      | true =>
          rw [if_pos rfl, if_neg (show ¬ (!true) = true from Bool.false_ne_true),
            if_neg (show ¬ (!true) = true from Bool.false_ne_true)]
          exact ih _
      | false =>
          rw [if_neg Bool.false_ne_true, if_pos (show (!false) = true from rfl)]
          rfl

theorem dispatch_of_passed {ctx left : Context ρ} (h : passed routes ctx = some left) :
    (dispatch routes ctx).ctx = { left with response := errorResponse statusNotFound } := by
  have happend := dispatch_append routes [] ctx
  rw [List.append_nil, h] at happend
  exact happend

theorem dispatch_empty_of_not_passed
    (h : passed routes ctx = none) : (dispatch routes ctx).ctx.response.empty = false := by
  induction routes generalizing ctx with
  | nil => cases h
  | cons route routes ih =>
      rw [passed] at h
      rw [dispatch]
      simp only at h ⊢
      cases hempty : (route.call ctx.currentRoute).2.response.empty with
      | true =>
          rw [hempty, if_pos rfl] at h
          exact ih h
      | false => exact hempty

theorem dispatch_currentRoute (routes : List (Route ρ)) (ctx : Context ρ) :
    (dispatch routes ctx.currentRoute).ctx.response = (dispatch routes ctx).ctx.response := by
  cases routes with
  | nil => rfl
  | cons route routes => rfl

theorem alike_iff (routes : List (Route ρ)) (ctx other : Context ρ) :
    (dispatch routes ctx).ctx.response.view = (dispatch routes other).ctx.response.view ↔
      Alike routes ctx other := by
  induction routes generalizing ctx other with
  | nil => exact iff_of_true rfl trivial
  | cons route routes ih =>
      rw [Alike, dispatch, dispatch]
      simp only
      cases hctx : (route.call ctx.currentRoute).2.response.empty with
      | true =>
          cases hother : (route.call other.currentRoute).2.response.empty with
          | true => exact ih _ _
          | false => exact (foundFromStart_iff _ _ _).symm
      | false =>
          cases hother : (route.call other.currentRoute).2.response.empty with
          | true => exact eq_comm.trans (foundFromStart_iff _ _ _).symm
          | false => exact Iff.rfl

/-! ## Routes that do not match -/

theorem forwardValve_valves (valves : List (RouteValve ρ)) (ctx : Context ρ) :
    (forwardValve (valves.map RouteValve.call) ctx).2.currentRoute = ctx.currentRoute := by
  induction valves generalizing ctx with
  | nil => rfl
  | cons valve valves ih =>
      have hcall : (callSetGet valve.call ctx).2.currentRoute = ctx.currentRoute := by
        cases valve with
        | segmentString seg =>
            change (ctx.checkSegment seg).2.currentRoute = ctx.currentRoute
            rw [Context.checkSegment]
            split
            · rfl
            · rfl
        | endpath => rfl
        | root => rfl
        | method methodStr => rfl
        | predicate test => rfl
      rw [List.map_cons, forwardValve]
      split
      · exact (ih _).trans hcall
      · exact hcall

omit [HttpRequest ρ] in
theorem forwardValve_append_of_false {callables : List (Callable ρ)}
    (h : (forwardValve callables ctx).1 = false) (rest : List (Callable ρ)) :
    forwardValve (callables ++ rest) ctx = forwardValve callables ctx := by
  induction callables generalizing ctx with
  | nil => cases h
  | cons callable callables ih =>
      rw [List.cons_append, forwardValve, forwardValve]
      rw [forwardValve] at h
      split at h
      · rename_i hret
        rw [if_pos hret, if_pos hret]
        exact ih h
      · rename_i hret
        rw [if_neg hret, if_neg hret]

theorem call_of_not_isMatch {route : Route ρ} (h : (route.isMatch ctx).1 = false) :
    (route.call ctx).2.currentRoute = ctx.currentRoute := by
  have hcall : route.call ctx = route.isMatch ctx := forwardValve_append_of_false h _
  rw [hcall]
  exact forwardValve_valves route.valves ctx

theorem passed_of_not_isMatch (hempty : ctx.response.empty = true)
    (h : ∀ route ∈ routes, (route.isMatch ctx.currentRoute).1 = false) :
    ∃ left, passed routes ctx = some left ∧ left.currentRoute = ctx.currentRoute := by
  induction routes generalizing ctx with
  | nil => exact ⟨ctx, rfl, rfl⟩
  | cons route routes ih =>
      have hcall : (route.call ctx.currentRoute).2.currentRoute = ctx.currentRoute :=
        call_of_not_isMatch (h route List.mem_cons_self)
      have hnext : (route.call ctx.currentRoute).2.response.empty = true := by
        have hsame := congrArg (fun c : Context ρ => c.response.empty) hcall
        exact hsame.trans hempty
      have hrest : ∀ r ∈ routes,
          (r.isMatch (route.call ctx.currentRoute).2.currentRoute).1 = false := by
        rw [hcall]
        exact fun r hr => h r (List.mem_cons_of_mem _ hr)
      obtain ⟨left, hpassed, hleft⟩ := ih hnext hrest
      refine ⟨left, ?_, hleft.trans hcall⟩
      rw [passed, if_pos hnext]
      exact hpassed

theorem passed_empty {ctx left : Context ρ}
    (hempty : ctx.response.empty = true) (h : passed routes ctx = some left) :
    left.response.empty = true := by
  induction routes generalizing ctx with
  | nil =>
      cases h
      exact hempty
  | cons route routes ih =>
      rw [passed] at h
      split at h
      · rename_i hcall
        exact ih hcall h
      · cases h

/-! ## The sub-router -/

theorem view_ofRouter_iff (sub post : List (Route ρ)) (ctx : Context ρ) :
    (dispatch (Route.ofRouter sub :: post) ctx).ctx.response.view =
        (dispatch (sub ++ post) ctx).ctx.response.view ↔
      ∀ left, passed sub ctx.currentRoute = some left →
        Alike post { left with response := errorResponse statusNotFound } left := by
  rw [← dispatch_currentRoute (sub ++ post), dispatch_append, dispatch, Route.ofRouter_call]
  simp only
  cases hpassed : passed sub ctx.currentRoute with
  | none =>
      rw [dispatch_empty_of_not_passed hpassed]
      refine iff_of_true rfl fun left h => ?_
      cases h
  | some left =>
      rw [dispatch_of_passed hpassed]
      simp only
      rw [if_neg (show ¬ (!(errorResponse statusNotFound).empty) = true from Bool.false_ne_true)]
      simp only [alike_iff]
      exact ⟨fun h _ heq => Option.some.inj heq ▸ h, fun h => h left rfl⟩

theorem untouched_iff {sub : List (Route ρ)} (hempty : ctx.response.empty = true)
    (h : ∀ route ∈ sub, (route.isMatch ctx.currentRoute).1 = false) :
    ((Route.ofRouter sub).call ctx.currentRoute).2.response = ctx.response ↔
      ctx.response = errorResponse statusNotFound := by
  have hstart : ctx.currentRoute.response.empty = true := hempty
  obtain ⟨left, hpassed, -⟩ := passed_of_not_isMatch hstart h
  rw [Route.ofRouter_call, dispatch_of_passed hpassed]
  exact eq_comm

end Webpp.Http
