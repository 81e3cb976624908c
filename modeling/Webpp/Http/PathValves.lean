import Webpp.Http.ValveTraits
import Webpp.Uri.PathTraverser

/-!
# Path valves

`root / s1 / ... / sk` and `root / s1 / ... % sk` are valves that move the position of the
context behind each segment that matches, and that leave it there if a later one does not.
`||` takes two patterns of one type for the same pattern, and its valve says `false` if the
left pattern matches.
-/

namespace Webpp.Http

/-! ## Requests -/

/-- A request whose URI is parsed to the path of the path traverser. -/
structure PathRequest where
  method : List Char
  uri : List Char
  path : List (List Char)
  parsed : Uri.pathTraverser uri = .ok path

instance : HttpRequest PathRequest := ⟨PathRequest.method, PathRequest.path⟩

/-! ## Patterns -/

variable {ρ : Type} [HttpRequest ρ]

/-- `root / first / ...`, where the last operator is `%` if the pattern `ends` there. -/
structure PathPattern where
  first : List Char
  rest : List (List Char)
  ends : Bool
  deriving DecidableEq

namespace PathPattern

def segments (p : PathPattern) : List (List Char) := p.first :: p.rest

/-- `operator%` puts `endpath` behind the segment. -/
def valves (p : PathPattern) : List (RouteValve ρ) :=
  .root :: p.segments.map .segmentString ++ if p.ends then [.endpath] else []

/-- `segment_valve::operator()`. -/
def call (p : PathPattern) : Callable ρ := fun ctx =>
  let ret := forwardValve (p.valves.map RouteValve.call) ctx
  (.bool ret.1, ret.2)

/-- The type of the segment valve of literals: their number, and whether `endpath` is behind
them. -/
def type (p : PathPattern) : ℕ × Bool := (p.segments.length, p.ends)

end PathPattern

/-- `or_valve::operator()`. -/
def orValve (lhs rhs : Callable ρ) : Callable ρ := fun ctx =>
  let left := callSetGet lhs ctx
  if !left.1 then
    let right := callSetGet rhs left.2
    (.bool right.1, right.2)
  else (.bool false, left.2)

/-- `operator||` of two patterns. -/
def PathPattern.either (p q : PathPattern) : Callable ρ :=
  if p.type = q.type then p.call else orValve p.call q.call

/-- A valve that is a route matches a request. -/
def Matches (valve : Callable ρ) (request : ρ) : Prop :=
  (callSetGet valve (Context.ofRequest request)).1 = true

/-! ## What they are for -/

/-- The path begins with the segments of the pattern, or consists of them. -/
def PathPattern.Covers (p : PathPattern) (path : List (List Char)) : Prop :=
  if p.ends then path = p.segments else p.segments <+: path

instance (p : PathPattern) (path : List (List Char)) : Decidable (p.Covers path) :=
  inferInstanceAs (Decidable (if p.ends then _ else _))

/-- Each pattern matches exactly the paths that it covers, and both of them together match
what one of them matches. -/
structure PatternsMatch (p q : PathPattern) (request : ρ) : Prop where
  left : Matches p.call request ↔ p.Covers (HttpRequest.segments request)
  right : Matches q.call request ↔ q.Covers (HttpRequest.segments request)
  either : Matches (p.either q) request ↔ Matches p.call request ∨ Matches q.call request

/-- Of two patterns of one type, the second one covers the path only if the first one does. Of
others, the first one does not cover it, and if the second one does, then the path has not even
the first segment of the first one. -/
def RightDecides (p q : PathPattern) (path : List (List Char)) : Prop :=
  if p.type = q.type then q.Covers path → p.Covers path
  else ¬ p.Covers path ∧ (q.Covers path → path.head? ≠ some p.first)

/-! ## Segments -/

/-- How many of the segments the path begins with. -/
def matched : List (List Char) → List (List Char) → ℕ
  | [], _ => 0
  | _ :: _, [] => 0
  | seg :: segs, slug :: path => if slug = seg then matched segs path + 1 else 0

theorem matched_eq_length_iff (segs path : List (List Char)) :
    matched segs path = segs.length ↔ segs <+: path := by
  induction segs generalizing path with
  | nil => exact iff_of_true rfl List.nil_prefix
  | cons seg segs ih =>
      cases path with
      | nil =>
          refine iff_of_false (Nat.succ_ne_zero _).symm fun h => ?_
          exact List.cons_ne_nil _ _ (List.prefix_nil.mp h)
      | cons slug path =>
          rw [matched, List.cons_prefix_cons, List.length_cons]
          split
          · rename_i hslug
            rw [Nat.succ_inj, ih]
            exact (and_iff_right hslug.symm).symm
          · rename_i hslug
            exact iff_of_false (Nat.succ_ne_zero _).symm fun h => hslug h.1.symm

omit [HttpRequest ρ] in
theorem checkSegment_eq (slug : List Char) (ctx : Context ρ) :
    ctx.checkSegment slug =
      if ctx.path[ctx.pos]? = some slug then (true, { ctx with pos := ctx.pos + 1 })
      else (false, ctx) := by
  by_cases h : ctx.path[ctx.pos]? = some slug
  · have hlt : ctx.pos < ctx.path.length := (List.getElem?_eq_some_iff.mp h).1
    have hend : ctx.atEnd = false := beq_false_of_ne (Nat.ne_of_lt hlt)
    rw [if_pos h, Context.checkSegment, hend, h, beq_self_eq_true]
    rfl
  · rw [if_neg h, Context.checkSegment, beq_false_of_ne h, Bool.and_false,
      if_neg Bool.false_ne_true]

theorem forwardValve_segments (segs : List (List Char)) (tail : List (Callable ρ))
    (ctx : Context ρ) :
    forwardValve (segs.map (fun seg => (RouteValve.segmentString seg).call) ++ tail) ctx =
      let count := matched segs (ctx.path.drop ctx.pos)
      if count = segs.length then forwardValve tail { ctx with pos := ctx.pos + count }
      else (false, { ctx with pos := ctx.pos + count }) := by
  induction segs generalizing ctx with
  | nil => rfl
  | cons seg segs ih =>
      have hcall : callSetGet (RouteValve.segmentString seg).call ctx = ctx.checkSegment seg := rfl
      rw [List.map_cons, List.cons_append, forwardValve, hcall, checkSegment_eq]
      by_cases h : ctx.path[ctx.pos]? = some seg
      · obtain ⟨hlt, hseg⟩ := List.getElem?_eq_some_iff.mp h
        have hdrop : ctx.path.drop ctx.pos = seg :: ctx.path.drop (ctx.pos + 1) := by
          rw [List.drop_eq_getElem_cons hlt, hseg]
        rw [if_pos h, if_pos rfl, ih, hdrop, matched, if_pos rfl]
        simp only [List.length_cons, Nat.succ_inj, Nat.add_assoc, Nat.add_comm 1]
      · have hmatched : matched (seg :: segs) (ctx.path.drop ctx.pos) = 0 := by
          cases hdrop : ctx.path.drop ctx.pos with
          | nil => rfl
          | cons slug path =>
              have hhead : ctx.path[ctx.pos]? = some slug := by
                rw [← List.head?_drop, hdrop]
                rfl
              rw [matched, if_neg fun heq : slug = seg => h (heq ▸ hhead)]
        rw [if_neg h, if_neg Bool.false_ne_true, hmatched]
        rfl

namespace PathPattern

/-- What is called behind the segments. -/
def tail (p : PathPattern) : List (Callable ρ) :=
  if p.ends then [RouteValve.endpath.call] else []

theorem callSetGet_call (p : PathPattern) (ctx : Context ρ) :
    callSetGet p.call ctx =
      if ctx.atBeginning then
        forwardValve (p.segments.map (fun seg => (RouteValve.segmentString seg).call) ++ p.tail) ctx
      else (false, ctx) := by
  have hvalves : (p.valves.map RouteValve.call : List (Callable ρ)) =
      RouteValve.root.call ::
        (p.segments.map (fun seg => (RouteValve.segmentString seg).call) ++ p.tail) := by
    rw [valves, List.cons_append, List.map_cons, List.map_append, List.map_map, tail]
    cases p.ends with
    | true => rfl
    | false => rfl
  have hcall : callSetGet p.call ctx = forwardValve (p.valves.map RouteValve.call) ctx := rfl
  rw [hcall, hvalves]
  rfl

theorem forwardValve_tail (p : PathPattern) (ctx : Context ρ) :
    forwardValve p.tail ctx = (!p.ends || ctx.atEnd, ctx) := by
  rw [tail]
  cases p.ends with
  | false => rfl
  | true =>
      change (if ctx.atEnd then (true, ctx) else (false, ctx)) = (ctx.atEnd, ctx)
      cases ctx.atEnd with
      | true => rfl
      | false => rfl

theorem isPrefix_of_covers {p : PathPattern} {path : List (List Char)} (h : p.Covers path) :
    p.segments <+: path := by
  rw [Covers] at h
  split at h
  · rw [h]
  · exact h

theorem covers_iff_of_isPrefix {p : PathPattern} {path : List (List Char)}
    (h : p.segments <+: path) :
    p.Covers path ↔ p.ends = false ∨ p.segments.length = path.length := by
  rw [Covers]
  cases p.ends with
  | false =>
      rw [if_neg Bool.false_ne_true]
      exact iff_of_true h (.inl rfl)
  | true =>
      rw [if_pos rfl]
      exact ⟨fun heq => .inr (congrArg List.length heq).symm,
        fun hlength => (h.eq_of_length (hlength.resolve_left (Ne.symm Bool.false_ne_true))).symm⟩

theorem callSetGet_of_pos_eq (p : PathPattern) {ctx : Context ρ} (h : ctx.pos = 0) :
    callSetGet p.call ctx =
      (decide (p.Covers ctx.path), { ctx with pos := matched p.segments ctx.path }) := by
  have hbeginning : ctx.atBeginning = true := beq_iff_eq.mpr h
  rw [callSetGet_call, hbeginning, if_pos rfl, forwardValve_segments, h, List.drop_zero]
  simp only [Nat.zero_add]
  by_cases hprefix : p.segments <+: ctx.path
  · have hcount := (matched_eq_length_iff _ _).mpr hprefix
    rw [if_pos hcount, forwardValve_tail, hcount]
    refine Prod.ext ?_ rfl
    rw [Bool.eq_iff_iff, decide_eq_true_iff, covers_iff_of_isPrefix hprefix, Bool.or_eq_true,
      Bool.not_eq_true', Context.atEnd, beq_iff_eq]
  · have hcount := mt (matched_eq_length_iff _ _).mp hprefix
    rw [if_neg hcount, decide_eq_false fun hcovers => hprefix (isPrefix_of_covers hcovers)]

theorem callSetGet_of_pos_ne (p : PathPattern) {ctx : Context ρ} (h : ctx.pos ≠ 0) :
    callSetGet p.call ctx = (false, ctx) := by
  have hbeginning : ctx.atBeginning = false := beq_false_of_ne h
  rw [callSetGet_call, hbeginning, if_neg Bool.false_ne_true]

theorem matches_iff (p : PathPattern) (request : ρ) :
    Matches p.call request ↔ p.Covers (HttpRequest.segments request) := by
  rw [Matches, callSetGet_of_pos_eq p rfl]
  exact decide_eq_true_iff

/-! ## Two patterns -/

theorem matched_eq_zero_iff (p : PathPattern) (path : List (List Char)) :
    matched p.segments path = 0 ↔ path.head? ≠ some p.first := by
  cases path with
  | nil => exact iff_of_true rfl (Option.some_ne_none _).symm
  | cons slug path =>
      rw [segments, matched, List.head?_cons, Ne, Option.some_inj]
      split
      · rename_i hslug
        exact iff_of_false (Nat.succ_ne_zero _) fun h => h hslug
      · rename_i hslug
        exact iff_of_true rfl hslug

theorem callSetGet_at_iff (q : PathPattern) (ctx : Context ρ) :
    (callSetGet q.call ctx).1 = true ↔ ctx.pos = 0 ∧ q.Covers ctx.path := by
  by_cases h : ctx.pos = 0
  · rw [callSetGet_of_pos_eq q h, decide_eq_true_iff]
    exact (and_iff_right h).symm
  · rw [callSetGet_of_pos_ne q h]
    exact iff_of_false Bool.false_ne_true fun hand => h hand.1

/-- The valve of two patterns matches if the first one does not match and has not moved the
position, and the second one matches. -/
theorem matches_orValve_iff (p q : PathPattern) (request : ρ) :
    Matches (orValve p.call q.call) request ↔
      ¬ p.Covers (HttpRequest.segments request) ∧
        (HttpRequest.segments request).head? ≠ some p.first ∧
          q.Covers (HttpRequest.segments request) := by
  have hleft := callSetGet_of_pos_eq p (show (Context.ofRequest request).pos = 0 from rfl)
  have hvalve : (callSetGet (orValve p.call q.call) (Context.ofRequest request)).1 =
      (orValve p.call q.call (Context.ofRequest request)).1.isPositive := rfl
  rw [Matches, hvalve, orValve, hleft, ← matched_eq_zero_iff]
  by_cases hcovers : p.Covers (Context.ofRequest request).path
  · rw [decide_eq_true hcovers]
    exact iff_of_false Bool.false_ne_true fun h => h.1 hcovers
  · rw [decide_eq_false hcovers]
    exact (callSetGet_at_iff q _).trans (and_iff_right hcovers).symm

/-- A request of a path. -/
def pathRequest : PathRequest := ⟨"GET".toList, "/a".toList, ["a".toList], rfl⟩

end PathPattern

end Webpp.Http
