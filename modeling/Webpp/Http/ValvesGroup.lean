import Webpp.Http.ValveTraits

/-!
# Groups of valves

A group has valves before its route, manglers around it and valves behind it. A mangler gets
the rest of the chain as `next`, which returns nothing: with a mangler in it, the group does
not know what the route has returned and calls the valves behind it in any case.
-/

namespace Webpp.Http

variable {ρ : Type} {ctx : Context ρ}

/-! ## Manglers -/

/-- What a mangler does: it calls `next` with a context, or it is done. -/
inductive ManglerRun (ρ : Type) where
  | done (ctx : Context ρ)
  | next (ctx : Context ρ) (resume : Context ρ → ManglerRun ρ)

abbrev Mangler (ρ : Type) := Context ρ → ManglerRun ρ

/-- A mangler that does nothing but call `next(ctx)` once. -/
def Mangler.plain : Mangler ρ := fun ctx => .next ctx .done

/-! ## What runs -/

/-- A valve is called, or a mangler is entered. -/
inductive ValveEvent where
  | pre (i : ℕ)
  | mangler (i : ℕ)
  | route (positive : Bool)
  | post (i : ℕ)
  deriving DecidableEq

/-- The context, and what has been run on it. -/
structure Trace (ρ : Type) where
  ctx : Context ρ
  events : List ValveEvent

/-- `forward_valve`, from its valve number `i` on. -/
def runValves (event : ℕ → ValveEvent) : ℕ → List (Callable ρ) → Trace ρ → Bool × Trace ρ
  | _, [], t => (true, t)
  | i, valve :: valves, t =>
      let ret := callSetGet valve t.ctx
      let t : Trace ρ := ⟨ret.2, t.events ++ [event i]⟩
      if ret.1 then runValves event (i + 1) valves t else (false, t)

def callNext (route : Callable ρ) (t : Trace ρ) : Trace ρ :=
  let ret := callSetGet route t.ctx
  ⟨ret.2, t.events ++ [.route ret.1]⟩

def ManglerRun.run (next : Trace ρ → Trace ρ) : ManglerRun ρ → List ValveEvent → Trace ρ
  | done ctx, events => ⟨ctx, events⟩
  | .next ctx resume, events =>
      let t := next ⟨ctx, events⟩
      (resume t.ctx).run next t.events

/-- `next_callable::operator()`, from the mangler number `i` on. -/
def callManglers (route : Callable ρ) : ℕ → List (Mangler ρ) → Trace ρ → Trace ρ
  | _, [], t => callNext route t
  | i, mangler :: manglers, t =>
      (mangler t.ctx).run (callManglers route (i + 1) manglers) (t.events ++ [.mangler i])

/-- `mangler_valve::operator()`. -/
def manglerValve (manglers : List (Mangler ρ)) (next : Callable ρ) (t : Trace ρ) :
    Bool × Trace ρ :=
  match manglers with
  | [] =>
      let ret := callSetGet next t.ctx
      (ret.1, ⟨ret.2, t.events ++ [.route ret.1]⟩)
  | _ :: _ => (true, callManglers next 0 manglers t)

structure ValvesGroup (ρ : Type) where
  pres : List (Callable ρ)
  posts : List (Callable ρ)
  manglers : List (Mangler ρ)
  routes : Callable ρ

namespace ValvesGroup

/-- `pres`, on a context. -/
def runPres (group : ValvesGroup ρ) (ctx : Context ρ) : Bool × Trace ρ :=
  runValves .pre 0 group.pres ⟨ctx, []⟩

/-- `operator()`. -/
def call (group : ValvesGroup ρ) (ctx : Context ρ) : Trace ρ :=
  let pre := group.runPres ctx
  if !pre.1 then pre.2
  else
    let ret := manglerValve group.manglers group.routes pre.2
    if !ret.1 then ret.2 else (runValves .post 0 group.posts ret.2).2

end ValvesGroup

/-! ## What it is for -/

/-- The result of a route. -/
def ValveEvent.result : ValveEvent → Option Bool
  | route positive => some positive
  | _ => none

/-- The route was positive, the last time that it ran. -/
def wasPositive (events : List ValveEvent) : Bool :=
  (events.filterMap ValveEvent.result).getLast? == some true

/-- All of the valves, whatever they return. -/
def runAll (event : ℕ → ValveEvent) : ℕ → List (Callable ρ) → Trace ρ → Trace ρ
  | _, [], t => t
  | i, valve :: valves, t =>
      runAll event (i + 1) valves ⟨(callSetGet valve t.ctx).2, t.events ++ [event i]⟩

/-- How the valves behind the route are run: as a chain, or all of them. -/
inductive PostOrder where
  | chain
  | all

def PostOrder.run (order : PostOrder) (posts : List (Callable ρ)) (t : Trace ρ) : Trace ρ :=
  match order with
  | chain => (runValves .post 0 posts t).2
  | all => runAll .post 0 posts t

/-- The events of one call of the chain from the mangler number `i` of `count` on: the mangler
is entered, and each call of `next` is one of the chain behind it. -/
inductive Entered (count : ℕ) : ℕ → List ValveEvent → Prop where
  | route (positive : Bool) : Entered count count [.route positive]
  | mangler {i : ℕ} (calls : List (List ValveEvent)) (hi : i < count)
      (h : ∀ events ∈ calls, Entered count (i + 1) events) :
      Entered count i (.mangler i :: calls.flatten)

/-- Manglers with plain ones added to them. -/
inductive AddsPlain : List (Mangler ρ) → List (Mangler ρ) → Prop where
  | nil : AddsPlain [] []
  | keep {manglers manglers' : List (Mangler ρ)} (mangler : Mangler ρ)
      (h : AddsPlain manglers manglers') : AddsPlain (mangler :: manglers) (mangler :: manglers')
  | add {manglers manglers' : List (Mangler ρ)} (h : AddsPlain manglers manglers') :
      AddsPlain manglers (.plain :: manglers')

/-- Which valves are run. -/
def valvesOf (events : List ValveEvent) : List ValveEvent :=
  events.filter fun event => match event with
    | .mangler _ => false
    | _ => true

namespace ValvesGroup

/-- The trace with the manglers entered. -/
def runManglers (group : ValvesGroup ρ) (ctx : Context ρ) : Trace ρ :=
  callManglers group.routes 0 group.manglers (group.runPres ctx).2

/-- A negative valve before the route ends the group; otherwise the manglers are entered, and
the valves behind the route run exactly if the route was positive. -/
def intended (group : ValvesGroup ρ) (order : PostOrder) (ctx : Context ρ) : Trace ρ :=
  if !(group.runPres ctx).1 then (group.runPres ctx).2
  else if wasPositive (group.runManglers ctx).events then
    order.run group.posts (group.runManglers ctx)
  else group.runManglers ctx

/-- A group runs what it should, the manglers are entered in their order and the route when the
last one calls `next`, and plain manglers change neither the valves that run nor the
response. -/
structure RunsInOrder (group : ValvesGroup ρ) (order : PostOrder) (ctx : Context ρ) : Prop where
  trace : group.call ctx = group.intended order ctx
  entered : (group.runPres ctx).1 = true → ∃ events, Entered group.manglers.length 0 events ∧
    (group.runPres ctx).2.events ++ events <+: (group.call ctx).events
  plain : ∀ manglers', AddsPlain group.manglers manglers' →
    ({ group with manglers := manglers' }.call ctx).ctx.response = (group.call ctx).ctx.response ∧
      valvesOf ({ group with manglers := manglers' }.call ctx).events =
        valvesOf (group.call ctx).events

/-- A valve before the route is negative, or the group has no valves behind it, or the route is
positive. -/
def RoutePositive (group : ValvesGroup ρ) (ctx : Context ρ) : Prop :=
  (group.runPres ctx).1 = true → group.posts ≠ [] →
    wasPositive (group.runManglers ctx).events = true

/-- The valves are positive, but for the last one. -/
def ButLastPositive : List (Callable ρ) → Context ρ → Prop
  | [], _ => True
  | [_], _ => True
  | valve :: valves, ctx =>
      (callSetGet valve ctx).1 = true ∧ ButLastPositive valves (callSetGet valve ctx).2

end ValvesGroup

/-! ## Chains -/

theorem runValves_events (event : ℕ → ValveEvent) (i : ℕ) (valves : List (Callable ρ))
    (t : Trace ρ) :
    ∃ n, (runValves event i valves t).2.events = t.events ++ (List.range' i n).map event ∧
      (valves ≠ [] → 0 < n) := by
  induction valves generalizing i t with
  | nil => exact ⟨0, (List.append_nil _).symm, fun h => absurd rfl h⟩
  | cons valve valves ih =>
      rw [runValves]
      split
      · obtain ⟨n, hevents, -⟩ := ih (i + 1)
          ⟨(callSetGet valve t.ctx).2, t.events ++ [event i]⟩
        refine ⟨n + 1, ?_, fun _ => Nat.succ_pos n⟩
        rw [hevents, List.append_assoc, List.range'_succ]
        rfl
      · exact ⟨1, rfl, fun _ => Nat.one_pos⟩

theorem runAll_events (event : ℕ → ValveEvent) (i : ℕ) (valves : List (Callable ρ))
    (t : Trace ρ) :
    (runAll event i valves t).events = t.events ++ (List.range' i valves.length).map event := by
  induction valves generalizing i t with
  | nil => exact (List.append_nil _).symm
  | cons valve valves ih =>
      rw [runAll, ih, List.append_assoc, List.length_cons, List.range'_succ]
      rfl

theorem runValves_eq_runAll_iff (event : ℕ → ValveEvent) (i : ℕ) (valves : List (Callable ρ))
    (t : Trace ρ) :
    (runValves event i valves t).2 = runAll event i valves t ↔
      ValvesGroup.ButLastPositive valves t.ctx := by
  induction valves generalizing i t with
  | nil => exact iff_of_true rfl trivial
  | cons valve valves ih =>
      rw [runValves, runAll]
      cases valves with
      | nil =>
          refine iff_of_true ?_ trivial
          split
          · rfl
          · rfl
      | cons next valves =>
          change _ ↔ (callSetGet valve t.ctx).1 = true ∧
            ValvesGroup.ButLastPositive (next :: valves) (callSetGet valve t.ctx).2
          split
          · rename_i hret
            rw [ih, and_iff_right hret]
          · rename_i hret
            refine iff_of_false (fun heq => ?_) fun h => hret h.1
            have hlength := congrArg (fun t : Trace ρ => t.events.length) heq
            simp only [runAll_events, List.length_append, List.length_map, List.length_range',
              List.length_cons] at hlength
            omega

/-! ## The chain of manglers -/

theorem ManglerRun.run_events {next : Trace ρ → Trace ρ} {P : List ValveEvent → Prop}
    (h : ∀ t, ∃ events, P events ∧ (next t).events = t.events ++ events) (r : ManglerRun ρ)
    (events : List ValveEvent) :
    ∃ calls : List (List ValveEvent), (∀ e ∈ calls, P e) ∧
      (r.run next events).events = events ++ calls.flatten := by
  induction r generalizing events with
  | done ctx => exact ⟨[], fun e he => absurd he List.not_mem_nil, (List.append_nil _).symm⟩
  | next ctx resume ih =>
      obtain ⟨first, hfirst, hnext⟩ := h ⟨ctx, events⟩
      obtain ⟨calls, hcalls, hrest⟩ := ih (next ⟨ctx, events⟩).ctx (next ⟨ctx, events⟩).events
      refine ⟨first :: calls, List.forall_mem_cons.mpr ⟨hfirst, hcalls⟩, ?_⟩
      rw [ManglerRun.run, hrest, hnext, List.flatten_cons, List.append_assoc]

/-- The manglers are entered in their order, however often they call `next`. -/
theorem callManglers_entered (route : Callable ρ) (i : ℕ) (manglers : List (Mangler ρ))
    (t : Trace ρ) :
    ∃ events, Entered (i + manglers.length) i events ∧
      (callManglers route i manglers t).events = t.events ++ events := by
  induction manglers generalizing i t with
  | nil => exact ⟨_, .route _, rfl⟩
  | cons mangler manglers ih =>
      have hcount : i + 1 + manglers.length = i + (mangler :: manglers).length := by
        rw [List.length_cons]
        omega
      have hnext : ∀ t : Trace ρ, ∃ events,
          Entered (i + (mangler :: manglers).length) (i + 1) events ∧
            (callManglers route (i + 1) manglers t).events = t.events ++ events := by
        rw [← hcount]
        exact ih (i + 1)
      obtain ⟨calls, hcalls, hevents⟩ :=
        (mangler t.ctx).run_events hnext (t.events ++ [.mangler i])
      refine ⟨_, .mangler calls (Nat.lt_add_of_pos_right (Nat.succ_pos _)) hcalls, ?_⟩
      rw [callManglers, hevents, List.append_assoc]
      rfl

/-! ## Plain manglers -/

/-- Two traces with the same context and the same valves. -/
def Trace.Same (t t' : Trace ρ) : Prop := t.ctx = t'.ctx ∧ valvesOf t.events = valvesOf t'.events

theorem valvesOf_append (events events' : List ValveEvent) :
    valvesOf (events ++ events') = valvesOf events ++ valvesOf events' :=
  List.filter_append ..

theorem Trace.Same.append {t t' : Trace ρ} (h : t.Same t') (ctx : Context ρ)
    (event : ValveEvent) :
    Trace.Same ⟨ctx, t.events ++ [event]⟩ ⟨ctx, t'.events ++ [event]⟩ := by
  refine ⟨rfl, ?_⟩
  rw [valvesOf_append, valvesOf_append, h.2]

theorem wasPositive_valvesOf (events : List ValveEvent) :
    wasPositive (valvesOf events) = wasPositive events := by
  have hresults : (valvesOf events).filterMap ValveEvent.result =
      events.filterMap ValveEvent.result := by
    induction events with
    | nil => rfl
    | cons event events ih =>
        cases event with
        | pre i => exact ih
        | mangler i => exact ih
        | route positive => exact congrArg (positive :: ·) ih
        | post i => exact ih
  rw [wasPositive, hresults, wasPositive]

theorem ManglerRun.run_same {next next' : Trace ρ → Trace ρ}
    (h : ∀ t t', t.Same t' → (next t).Same (next' t')) (r : ManglerRun ρ)
    {events events' : List ValveEvent} (hevents : valvesOf events = valvesOf events') :
    (r.run next events).Same (r.run next' events') := by
  induction r generalizing events events' with
  | done ctx => exact ⟨rfl, hevents⟩
  | next ctx resume ih =>
      have hnext := h ⟨ctx, events⟩ ⟨ctx, events'⟩ ⟨rfl, hevents⟩
      rw [ManglerRun.run, ManglerRun.run]
      rw [← hnext.1]
      exact ih _ hnext.2

theorem callManglers_same (route : Callable ρ) {manglers manglers' : List (Mangler ρ)}
    (h : AddsPlain manglers manglers') (i j : ℕ) {t t' : Trace ρ} (ht : t.Same t') :
    (callManglers route i manglers t).Same (callManglers route j manglers' t') := by
  induction h generalizing i j t t' with
  | nil =>
      rw [callManglers, callManglers, callNext, callNext, ht.1]
      exact ht.append _ _
  | keep mangler _ ih =>
      rw [callManglers, callManglers, ht.1]
      refine (mangler t'.ctx).run_same (fun t t' => ih (i + 1) (j + 1)) ?_
      rw [valvesOf_append, valvesOf_append, ht.2]
      rfl
  | add _ ih =>
      refine ih i (j + 1) ⟨ht.1, ?_⟩
      rw [valvesOf_append, ht.2]
      exact (List.append_nil _).symm

theorem runValves_same (event : ℕ → ValveEvent) (i : ℕ) (valves : List (Callable ρ))
    {t t' : Trace ρ} (h : t.Same t') :
    (runValves event i valves t).2.Same (runValves event i valves t').2 := by
  induction valves generalizing i t t' with
  | nil => exact h
  | cons valve valves ih =>
      rw [runValves, runValves, h.1]
      split
      · exact ih _ (h.append _ _)
      · exact h.append _ _

namespace ValvesGroup

/-! ## The group -/

theorem wasPositive_append (events : List ValveEvent) (positive : Bool) :
    wasPositive (events ++ [.route positive]) = positive := by
  have hlast : ((events ++ [ValveEvent.route positive]).filterMap ValveEvent.result).getLast? =
      some positive := by
    rw [List.filterMap_append]
    exact List.getLast?_concat
  rw [wasPositive, hlast]
  cases positive with
  | true => rfl
  | false => rfl

/-- The valves behind the route are skipped only if there is no mangler and the route is not
positive. -/
theorem call_eq (group : ValvesGroup ρ) (ctx : Context ρ) :
    group.call ctx =
      if !(group.runPres ctx).1 then (group.runPres ctx).2
      else if group.manglers.isEmpty && !wasPositive (group.runManglers ctx).events then
        group.runManglers ctx
      else (runValves .post 0 group.posts (group.runManglers ctx)).2 := by
  have hempty : group.manglers = [] → manglerValve group.manglers group.routes (group.runPres ctx).2
      = (wasPositive (group.runManglers ctx).events, group.runManglers ctx) := by
    intro hmanglers
    rw [runManglers, hmanglers, manglerValve, callManglers, callNext, wasPositive_append]
  have hsome : group.manglers ≠ [] → manglerValve group.manglers group.routes (group.runPres ctx).2
      = (true, group.runManglers ctx) := by
    intro hmanglers
    obtain ⟨mangler, manglers, hcons⟩ := List.exists_cons_of_ne_nil hmanglers
    rw [runManglers, hcons]
    rfl
  rw [call]
  by_cases hmanglers : group.manglers = []
  · rw [hempty hmanglers, hmanglers, List.isEmpty_nil, Bool.true_and]
  · rw [hsome hmanglers, List.isEmpty_eq_false_iff.mpr hmanglers, Bool.false_and,
      if_neg Bool.false_ne_true]
    rfl

/-- What the manglers and the valves behind them do, once the valves before the route are
positive. -/
theorem call_of_pres {group : ValvesGroup ρ}
    (hpres : (group.runPres ctx).1 = true) (h : group.RoutePositive ctx) :
    group.call ctx = (runValves .post 0 group.posts (group.runManglers ctx)).2 := by
  rw [call_eq, hpres, if_neg (show ¬ (!true) = true from Bool.false_ne_true)]
  by_cases hposts : group.posts = []
  · rw [hposts]
    exact ite_self _
  · rw [h hpres hposts, Bool.not_true, Bool.and_false, if_neg Bool.false_ne_true]

theorem runManglers_events (group : ValvesGroup ρ) (ctx : Context ρ) :
    ∃ events, Entered group.manglers.length 0 events ∧
      (group.runManglers ctx).events = (group.runPres ctx).2.events ++ events := by
  have hentered := callManglers_entered group.routes 0 group.manglers (group.runPres ctx).2
  rw [Nat.zero_add] at hentered
  exact hentered

theorem entered_call {group : ValvesGroup ρ} (hpres : (group.runPres ctx).1 = true) :
    ∃ events, Entered group.manglers.length 0 events ∧
      (group.runPres ctx).2.events ++ events <+: (group.call ctx).events := by
  obtain ⟨events, hentered, hevents⟩ := runManglers_events group ctx
  refine ⟨events, hentered, ?_⟩
  rw [← hevents, call_eq, hpres, if_neg (show ¬ (!true) = true from Bool.false_ne_true)]
  split
  · exact List.prefix_rfl
  · obtain ⟨n, hposts, -⟩ := runValves_events .post 0 group.posts (group.runManglers ctx)
    rw [hposts]
    exact List.prefix_append _ _

theorem runManglers_same {group : ValvesGroup ρ} {manglers' : List (Mangler ρ)}
    (h : AddsPlain group.manglers manglers') (ctx : Context ρ) :
    (group.runManglers ctx).Same ({ group with manglers := manglers' }.runManglers ctx) :=
  callManglers_same group.routes h 0 0 ⟨rfl, rfl⟩

theorem routePositive_of_addsPlain {group : ValvesGroup ρ} {manglers' : List (Mangler ρ)}
    (h : AddsPlain group.manglers manglers') (hroute : group.RoutePositive ctx) :
    { group with manglers := manglers' }.RoutePositive ctx := by
  intro hpres hposts
  have hsame := (runManglers_same h ctx).2
  rw [← wasPositive_valvesOf, ← hsame, wasPositive_valvesOf]
  exact hroute hpres hposts

theorem call_same {group : ValvesGroup ρ} {manglers' : List (Mangler ρ)}
    (h : AddsPlain group.manglers manglers') (hroute : group.RoutePositive ctx) :
    (group.call ctx).Same ({ group with manglers := manglers' }.call ctx) := by
  cases hpres : (group.runPres ctx).1 with
  | false =>
      have hpres' : ({ group with manglers := manglers' }.runPres ctx).1 = false := hpres
      rw [call_eq, call_eq, hpres, hpres']
      exact ⟨rfl, rfl⟩
  | true =>
      have hpres' : ({ group with manglers := manglers' }.runPres ctx).1 = true := hpres
      rw [call_of_pres hpres hroute, call_of_pres hpres' (routePositive_of_addsPlain h hroute)]
      exact runValves_same _ _ _ (runManglers_same h ctx)

/-! ## When a group runs what it should -/

theorem valvesOf_runPosts_ne {posts : List (Callable ρ)} (h : posts ≠ []) (t : Trace ρ) :
    valvesOf (runValves .post 0 posts t).2.events ≠ valvesOf t.events := by
  obtain ⟨n, hevents, hpos⟩ := runValves_events .post 0 posts t
  have hposts : valvesOf ((List.range' 0 n).map .post) = (List.range' 0 n).map .post := by
    refine List.filter_eq_self.mpr fun event hevent => ?_
    obtain ⟨i, -, rfl⟩ := List.mem_map.mp hevent
    rfl
  rw [hevents, valvesOf_append, hposts]
  intro heq
  have hnil := List.append_right_eq_self.mp heq
  rw [List.map_eq_nil_iff, List.range'_eq_nil_iff] at hnil
  exact absurd (hpos h) (hnil ▸ Nat.lt_irrefl 0)

theorem routePositive_of_runsInOrder {group : ValvesGroup ρ}
    (h : group.RunsInOrder .chain ctx) : group.RoutePositive ctx := by
  intro hpres hposts
  by_contra hroute
  have hnegative := eq_false_of_ne_true hroute
  have hcall := call_eq group ctx
  rw [hpres, if_neg (show ¬ (!true) = true from Bool.false_ne_true), hnegative] at hcall
  by_cases hmanglers : group.manglers = []
  · -- The first plain mangler makes the valves behind the route run.
    have hadd : AddsPlain group.manglers [.plain] := by
      rw [hmanglers]
      exact .add .nil
    have hcall' := call_eq { group with manglers := [.plain] } ctx
    have hpres' : ({ group with manglers := [.plain] }.runPres ctx).1 = true := hpres
    rw [hpres', if_neg (show ¬ (!true) = true from Bool.false_ne_true),
      List.isEmpty_cons, Bool.false_and, if_neg Bool.false_ne_true] at hcall'
    have hvalves := (h.plain _ hadd).2
    rw [hmanglers, List.isEmpty_nil, Bool.not_false, Bool.and_true, if_pos rfl] at hcall
    rw [hcall, hcall', (runManglers_same hadd ctx).2] at hvalves
    exact valvesOf_runPosts_ne hposts _ hvalves
  · have htrace := h.trace
    rw [List.isEmpty_eq_false_iff.mpr hmanglers, Bool.false_and, if_neg Bool.false_ne_true]
      at hcall
    rw [hcall, intended, hpres, if_neg (show ¬ (!true) = true from Bool.false_ne_true), hnegative,
      if_neg Bool.false_ne_true] at htrace
    exact valvesOf_runPosts_ne hposts _ (congrArg (fun t => valvesOf t.events) htrace)

theorem runsInOrder_of_routePositive {group : ValvesGroup ρ}
    (h : group.RoutePositive ctx) : group.RunsInOrder .chain ctx := by
  refine ⟨?_, entered_call, fun manglers' hadd => ?_⟩
  · rw [intended]
    cases hpres : (group.runPres ctx).1 with
    | false =>
        rw [call_eq, hpres]
        rfl
    | true =>
        rw [call_of_pres hpres h, if_neg (show ¬ (!true) = true from Bool.false_ne_true)]
        by_cases hposts : group.posts = []
        · rw [hposts]
          exact (ite_self _).symm
        · rw [h hpres hposts, if_pos rfl]
          rfl
  · have hsame := call_same hadd h
    exact ⟨congrArg Context.response hsame.1.symm, hsame.2.symm⟩

theorem runsInOrder_all_iff (group : ValvesGroup ρ) (ctx : Context ρ) :
    group.RunsInOrder .all ctx ↔ group.RunsInOrder .chain ctx ∧
      ((group.runPres ctx).1 = true → wasPositive (group.runManglers ctx).events = true →
        ButLastPositive group.posts (group.runManglers ctx).ctx) := by
  have htrace : group.call ctx = group.intended .all ctx ↔
      group.call ctx = group.intended .chain ctx ∧
        ((group.runPres ctx).1 = true → wasPositive (group.runManglers ctx).events = true →
          ButLastPositive group.posts (group.runManglers ctx).ctx) := by
    rw [intended, intended, call_eq]
    cases hpres : (group.runPres ctx).1 with
    | false => exact (and_iff_left fun h => absurd h Bool.false_ne_true).symm
    | true =>
        cases hroute : wasPositive (group.runManglers ctx).events with
        | false => exact (and_iff_left fun _ h => absurd h Bool.false_ne_true).symm
        | true =>
            rw [if_neg (show ¬ (!true) = true from Bool.false_ne_true), Bool.not_true,
              Bool.and_false, if_neg Bool.false_ne_true, if_pos rfl,
              forall_prop_of_true rfl, forall_prop_of_true rfl]
            exact (runValves_eq_runAll_iff _ _ _ _).trans (and_iff_right rfl).symm
  constructor
  · intro h
    obtain ⟨hchain, hposts⟩ := htrace.mp h.trace
    exact ⟨⟨hchain, h.entered, h.plain⟩, hposts⟩
  · rintro ⟨h, hposts⟩
    exact ⟨htrace.mpr ⟨h.trace, hposts⟩, h.entered, h.plain⟩

/-- A group runs what it should exactly if the route is positive or there is nothing behind
it; and if the valves behind it should all run, they have to be positive but for the last. -/
theorem runsInOrder_iff (group : ValvesGroup ρ) (ctx : Context ρ) :
    (group.RunsInOrder .chain ctx ↔ group.RoutePositive ctx) ∧
      (group.RunsInOrder .all ctx ↔ group.RoutePositive ctx ∧
        ((group.runPres ctx).1 = true → wasPositive (group.runManglers ctx).events = true →
          ButLastPositive group.posts (group.runManglers ctx).ctx)) := by
  have hchain : group.RunsInOrder .chain ctx ↔ group.RoutePositive ctx :=
    ⟨routePositive_of_runsInOrder, runsInOrder_of_routePositive⟩
  exact ⟨hchain, (runsInOrder_all_iff group ctx).trans (and_congr_left' hchain)⟩

/-- A valve that returns this value. -/
def returning (ret : Returned) : Callable PlainRequest := fun ctx => (ret, ctx)

/-- A group with a mangler, a route that returns `false` and a valve behind it. -/
def mangledGroup : ValvesGroup PlainRequest :=
  ⟨[], [returning .void], [.plain], returning (.bool false)⟩

/-- With a mangler, the valve behind a negative route runs. -/
theorem not_runsInOrder_mangled :
    ¬ ∀ (group : ValvesGroup PlainRequest) (ctx : Context PlainRequest),
      group.RunsInOrder .chain ctx := by
  intro h
  have htrace := (h mangledGroup (Context.ofRequest ⟨['G', 'E', 'T'], []⟩)).trace
  exact absurd (congrArg Trace.events htrace) (by decide)

end ValvesGroup

end Webpp.Http
