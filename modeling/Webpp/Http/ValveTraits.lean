import Mathlib.Data.List.Basic

/-!
# Valves and the context

Valves and handlers are called with the context, which they can change, and what they return
is put in its response. `forward_valve` calls valves in their order until one of them says
that the route does not go on.
-/

namespace Webpp.Http

/-! ## Responses -/

def statusOk : ℕ := 200

def statusNotFound : ℕ := 404

/-- A response whose body is a text. -/
structure Response where
  statusCode : ℕ := statusOk
  headers : List (List Char × List Char) := []
  body : List Char := []
  deriving DecidableEq

/-- `empty`, which does not look at the status code. -/
def Response.empty (res : Response) : Bool := res.headers.isEmpty && res.body.isEmpty

/-! ## The context -/

/-- What the valves read of a request: its method and the segments of its normalised path. -/
class HttpRequest (ρ : Type) where
  method : ρ → List Char
  segments : ρ → List (List Char)

/-- `basic_context`: the position is the one of its path traverser. -/
structure Context (ρ : Type) where
  request : ρ
  response : Response
  path : List (List Char)
  pos : ℕ

namespace Context

variable {ρ : Type}

def ofRequest [HttpRequest ρ] (request : ρ) : Context ρ :=
  ⟨request, {}, HttpRequest.segments request, 0⟩

def atBeginning (ctx : Context ρ) : Bool := ctx.pos == 0

def atEnd (ctx : Context ρ) : Bool := ctx.pos == ctx.path.length

/-- `check_segment`, which moves on behind a segment that matches. -/
def checkSegment (slug : List Char) (ctx : Context ρ) : Bool × Context ρ :=
  if !ctx.atEnd && ctx.path[ctx.pos]? == some slug then (true, { ctx with pos := ctx.pos + 1 })
  else (false, ctx)

/-- `current_route`, which resets the path traverser. -/
def currentRoute (ctx : Context ρ) : Context ρ := { ctx with pos := 0 }

end Context

/-! ## What a valve returns -/

/-- The values that a callable can return, by their type. -/
inductive Returned where
  /-- `void`. -/
  | void
  | nothingType
  | bool (ret : Bool)
  /-- `char const*`. -/
  | literal (str : List Char)
  /-- `string` and `string_view`. -/
  | text (str : List Char)
  | response (res : Response)
  /-- `status_code`, or an integer. -/
  | statusCode (code : ℕ)
  /-- An optional value or a pointer to one. -/
  | engaged (ret : Returned)
  /-- `nullopt` or `nullptr`. -/
  | null

namespace Returned

/-- `is_positive`: the route goes on. A `char const*` is a pointer. -/
def isPositive : Returned → Bool
  | void => true
  | bool ret => ret
  | literal _ => true
  | engaged _ => true
  | _ => false

/-- A text, a response or a status code is returned. -/
def hasValue : Returned → Bool
  | literal _ => true
  | text _ => true
  | response _ => true
  | statusCode _ => true
  | engaged ret => ret.hasValue
  | _ => false

/-- `set_response`: a text sets the body only, and a status code only the status. -/
def setResponse : Returned → Response → Response
  | literal str, res => { res with body := str }
  | text str, res => { res with body := str }
  | response ret, _ => ret
  | statusCode code, res => { res with statusCode := code }
  | engaged ret, res => ret.setResponse res
  | _, res => res

end Returned

/-! ## Calling valves -/

section Valves

variable {ρ : Type}

/-- Anything that can be called with a context. -/
abbrev Callable (ρ : Type) := Context ρ → Returned × Context ρ

/-- `call_set_get`: whether the route goes on, and the context with the response. -/
def callSetGet (callable : Callable ρ) (ctx : Context ρ) : Bool × Context ρ :=
  let ret := callable ctx
  (ret.1.isPositive, { ret.2 with response := ret.1.setResponse ret.2.response })

/-- `forward_valve`, and `segment_valve`, which calls its segments in the same way. -/
def forwardValve : List (Callable ρ) → Context ρ → Bool × Context ρ
  | [], ctx => (true, ctx)
  | callable :: callables, ctx =>
      let ret := callSetGet callable ctx
      if ret.1 then forwardValve callables ret.2 else (false, ret.2)

/-- The valves at the start of a route. -/
inductive RouteValve (ρ : Type) where
  | segmentString (seg : List Char)
  | endpath
  | root
  | method (methodStr : List Char)
  | predicate (test : Context ρ → Bool)

/-- The call of a valve. -/
def RouteValve.call [HttpRequest ρ] : RouteValve ρ → Callable ρ
  | segmentString seg, ctx =>
      let ret := ctx.checkSegment seg
      (.bool ret.1, ret.2)
  | endpath, ctx => (.bool ctx.atEnd, ctx)
  | root, ctx => (.bool ctx.atBeginning, ctx)
  | method methodStr, ctx => (.bool (HttpRequest.method ctx.request == methodStr), ctx)
  | predicate test, ctx => (.bool (test ctx), ctx)

/-- A chain of valves, followed by handlers. -/
structure Route (ρ : Type) where
  valves : List (RouteValve ρ)
  handlers : List (Callable ρ)

namespace Route

variable [HttpRequest ρ]

/-- The call of a route: whether its chain came to its end, and the context. -/
def call (r : Route ρ) : Context ρ → Bool × Context ρ :=
  forwardValve (r.valves.map RouteValve.call ++ r.handlers)

/-- All valves match. -/
def isMatch (r : Route ρ) (ctx : Context ρ) : Bool × Context ρ :=
  forwardValve (r.valves.map RouteValve.call) ctx

end Route

/-- One of the handlers that are called returns a value. -/
def handlersAnswer : List (Callable ρ) → Context ρ → Bool
  | [], _ => false
  | handler :: handlers, ctx =>
      let ret := callSetGet handler ctx
      (handler ctx).1.hasValue || ret.1 && handlersAnswer handlers ret.2

/-- The valves of the route match, and a handler of it returns a value. -/
def Route.answers [HttpRequest ρ] (r : Route ρ) (ctx : Context ρ) : Bool :=
  (r.isMatch ctx).1 && handlersAnswer r.handlers (r.isMatch ctx).2

end Valves

/-- A request with nothing else. -/
structure PlainRequest where
  method : List Char
  segments : List (List Char)

instance : HttpRequest PlainRequest := ⟨PlainRequest.method, PlainRequest.segments⟩

end Webpp.Http
