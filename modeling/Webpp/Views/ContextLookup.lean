import Webpp.Text.SplitsIteration
import Webpp.Views.MustacheParse

/-!
# Looking up names

A name is looked up in the trees of the variables of the stack, one after another. A name with
dots is split, and each of its parts is looked up in the tree of what the part before it gave.
-/

namespace Webpp.Views

open Text.Splits

variable {name : List Char}

/-! ## The tree of a variable -/

namespace Variable

mutual

/-- The variables of a tree, each in front of those in its list. -/
def tree : Variable → List Variable
  | list key items => list key items :: trees items
  | v => [v]

def trees : List Variable → List Variable
  | [] => []
  | item :: items => item.tree ++ trees items

end

/-- The first of the variables with the key. -/
def firstWith (inputKey : List Char) (vars : List Variable) : Option Variable :=
  vars.find? fun v => decide (v.key = inputKey)

theorem firstWith_cons (inputKey : List Char) (v : Variable) (vars : List Variable) :
    firstWith inputKey (v :: vars) =
      if v.key = inputKey then some v else firstWith inputKey vars := by
  rw [firstWith, List.find?_cons]
  by_cases hkey : v.key = inputKey
  · rw [if_pos hkey, decide_eq_true hkey]
  · rw [if_neg hkey, decide_eq_false hkey]
    rfl

theorem firstWith_append (inputKey : List Char) (vars vars' : List Variable) :
    firstWith inputKey (vars ++ vars') =
      (firstWith inputKey vars).or (firstWith inputKey vars') := List.find?_append

mutual

theorem get_eq_firstWith (inputKey : List Char) (v : Variable) :
    v.get inputKey = firstWith inputKey v.tree := by
  match v with
  | list key items =>
      rw [get, tree, firstWith_cons, getIn_eq_firstWith inputKey items]
      rfl
  | bool key val => simp only [get, tree, firstWith_cons]; rfl
  | lambda key id => simp only [get, tree, firstWith_cons]; rfl
  | partialText key text => simp only [get, tree, firstWith_cons]; rfl
  | string key str => simp only [get, tree, firstWith_cons]; rfl

theorem getIn_eq_firstWith (inputKey : List Char) (items : List Variable) :
    getIn inputKey items = firstWith inputKey (trees items) := by
  match items with
  | [] => rfl
  | item :: items =>
      rw [getIn, trees, firstWith_append, get_eq_firstWith inputKey item,
        getIn_eq_firstWith inputKey items]
      cases firstWith inputKey item.tree <;> rfl

end

end Variable

/-! ## The function -/

/-- The names of `x.y`, split in at most `n` rounds. -/
def splitNames (n : ℕ) (name : List Char) : Option (List (List Char)) :=
  ((BasicSplitter.ofChars name '.' []).split n).map
    (·.map (BasicSplitter.ofChars name '.' []).text)

theorem ne_dot_of_not_mem (h : '.' ∉ name) : name ≠ ['.'] := by
  rintro rfl
  exact h List.mem_cons_self

theorem splitNames_exists (hne : name ≠ [])
    (hhead : name.head? ≠ some '.') : ∃ n, splitNames n name = some (name.splitOn '.') :=
  BasicSplitter.split_ofChars hne hhead

theorem splitNames_of_head (hhead : name.head? = some '.') (n : ℕ) :
    splitNames n name = none := by
  rw [splitNames, BasicSplitter.split_of_head hhead]
  rfl

theorem splitNames_eq {names : List (List Char)} {n : ℕ} (hne : name ≠ [])
    (hhead : name.head? ≠ some '.') (h : splitNames n name = some names) :
    names = name.splitOn '.' := by
  obtain ⟨m, hm⟩ := splitNames_exists hne hhead
  obtain ⟨pieces, hpieces, rfl⟩ := Option.map_eq_some_iff.1 h
  obtain ⟨pieces', hpieces', hnames⟩ := Option.map_eq_some_iff.1 hm
  have hmax := BasicSplitter.split_mono hpieces (Nat.le_max_left n m)
  have hmax' := BasicSplitter.split_mono hpieces' (Nat.le_max_right n m)
  rw [← hnames, Option.some.inj (hmax.symm.trans hmax')]

namespace Context

/-- `get`, where a name is split in at most `n` rounds. -/
def getWithin (n : ℕ) (name : List Char) (ctx : Context) : Except RenderFault (Option Variable) :=
  if name = ['.'] then
    match ctx with
    | [] => .error .frontOfEmpty
    | item :: _ => .ok (some item)
  else if '.' ∈ name then
    match splitNames n name with
    | none => .error .endlessSplit
    | some names => .ok (getPath names ctx)
  else .ok (getName name ctx)

section GetWithin

variable {name : List Char} (ctx : Context) {n : ℕ}

theorem getWithin_dotted (hdot : name ≠ ['.']) (hmem : '.' ∈ name) {names : List (List Char)}
    (h : splitNames n name = some names) : ctx.getWithin n name = .ok (ctx.getPath names) := by
  unfold getWithin
  rw [if_neg hdot, if_pos hmem, h]

theorem getWithin_endless (hdot : name ≠ ['.']) (hmem : '.' ∈ name)
    (h : splitNames n name = none) : ctx.getWithin n name = .error .endlessSplit := by
  unfold getWithin
  rw [if_neg hdot, if_pos hmem, h]

theorem getWithin_plain (hmem : '.' ∉ name) : ctx.getWithin n name = .ok (ctx.getName name) := by
  unfold getWithin
  rw [if_neg (ne_dot_of_not_mem hmem), if_neg hmem]

theorem getWithin_dotted_iff (hdot : name ≠ ['.']) (hmem : '.' ∈ name) (r : Option Variable) :
    (∃ n, ctx.getWithin n name = .ok r) ↔
      name.head? ≠ some '.' ∧ r = ctx.getPath (name.splitOn '.') := by
  have hne := List.ne_nil_of_mem hmem
  constructor
  · rintro ⟨n, h⟩
    cases hnames : splitNames n name with
    | none =>
        rw [getWithin_endless ctx hdot hmem hnames] at h
        cases h
    | some names =>
        have hhead : name.head? ≠ some '.' := by
          intro hhead
          rw [splitNames_of_head hhead] at hnames
          cases hnames
        rw [getWithin_dotted ctx hdot hmem hnames, splitNames_eq hne hhead hnames] at h
        exact ⟨hhead, (Except.ok.inj h).symm⟩
  · rintro ⟨hhead, rfl⟩
    obtain ⟨n, hsplit⟩ := splitNames_exists hne hhead
    exact ⟨n, getWithin_dotted ctx hdot hmem hsplit⟩

end GetWithin

end Context

/-! ## What is to be found -/

/-- Each part is the key of the first such variable in the tree of the one before it. -/
inductive Leads : Variable → List (List Char) → Variable → Prop where
  | nil (v : Variable) : Leads v [] v
  | cons {v w u : Variable} {part : List Char} {parts : List (List Char)}
      (hfirst : Variable.firstWith part v.tree = some w) (hrest : Leads w parts u) :
      Leads v (part :: parts) u

/-- The variable that the first item leads to from which the parts lead to any. -/
inductive FirstLed (parts : List (List Char)) : Context → Option Variable → Prop where
  | nowhere : FirstLed parts [] none
  | here {item v : Variable} {ctx : Context} (h : Leads item parts v) :
      FirstLed parts (item :: ctx) (some v)
  | outwards {item : Variable} {ctx : Context} {r : Option Variable}
      (hnone : ∀ v, ¬ Leads item parts v) (h : FirstLed parts ctx r) :
      FirstLed parts (item :: ctx) r

/-- What the name is to give. -/
structure IsLookup (name : List Char) (ctx : Context) (r : Option Variable) : Prop where
  dot : name = ['.'] → r = ctx.head?
  plain : '.' ∉ name → r = Variable.firstWith name (ctx.flatMap Variable.tree)
  path : name ≠ ['.'] → '.' ∈ name → [] ∉ name.splitOn '.' →
    FirstLed (name.splitOn '.') ctx r
  blank : name ≠ ['.'] → '.' ∈ name → [] ∈ name.splitOn '.' → r = none

/-- `get` ends and gives it. -/
def LooksUp (name : List Char) (ctx : Context) : Prop :=
  ∃ n r, ctx.getWithin n name = .ok r ∧ IsLookup name ctx r

/-! ## The loops -/

theorem leads_iff (v u : Variable) (parts : List (List Char)) :
    parts.foldlM (fun var n => Variable.get n var) v = some u ↔ Leads v parts u := by
  induction parts generalizing v with
  | nil =>
      rw [List.foldlM_nil]
      constructor
      · rintro ⟨⟩
        exact .nil _
      · rintro ⟨⟩
        rfl
  | cons part parts ih =>
      rw [List.foldlM_cons, Variable.get_eq_firstWith]
      constructor
      · intro h
        obtain ⟨w, hfirst, hrest⟩ := Option.bind_eq_some_iff.1 h
        exact .cons hfirst ((ih w).1 hrest)
      · rintro (_ | ⟨hfirst, hrest⟩)
        exact Option.bind_eq_some_iff.2 ⟨_, hfirst, (ih _).2 hrest⟩

theorem firstLed_getPath (parts : List (List Char)) (ctx : Context) :
    FirstLed parts ctx (ctx.getPath parts) := by
  rw [Context.getPath]
  induction ctx with
  | nil => exact .nowhere
  | cons item ctx ih =>
      rw [List.findSome?_cons]
      cases hitem : parts.foldlM (fun var n => Variable.get n var) item with
      | some v => exact .here ((leads_iff item v parts).1 hitem)
      | none =>
          refine .outwards (fun v hv => ?_) ih
          rw [(leads_iff item v parts).2 hv] at hitem
          cases hitem

theorem FirstLed.none_iff {parts : List (List Char)} {ctx : Context} {r : Option Variable}
    (h : FirstLed parts ctx r) : r = none ↔ ∀ item ∈ ctx, ∀ v, ¬ Leads item parts v := by
  induction h with
  | nowhere => exact iff_of_true rfl fun item h => absurd h List.not_mem_nil
  | here h =>
      exact iff_of_false (Option.some_ne_none _) fun hnone => hnone _ List.mem_cons_self _ h
  | outwards hnone _ ih =>
      rw [List.forall_mem_cons, ih]
      exact ⟨fun h => ⟨hnone, h⟩, fun h => h.2⟩

theorem getName_eq_firstWith (name : List Char) (ctx : Context) :
    ctx.getName name = Variable.firstWith name (ctx.flatMap Variable.tree) := by
  rw [Context.getName]
  induction ctx with
  | nil => rfl
  | cons item ctx ih =>
      rw [List.findSome?_cons, List.flatMap_cons, Variable.firstWith_append, ih,
        Variable.get_eq_firstWith]
      cases Variable.firstWith name item.tree <;> rfl

/-! ## All names -/

/-- A lookup is right if and only if `.` is looked up in a stack with a variable, no other name
begins with a dot, and a name with an empty part leads nowhere even where the empty part is
taken for a key. -/
theorem looksUp_iff (name : List Char) (ctx : Context) :
    LooksUp name ctx ↔ (name = ['.'] → ctx ≠ []) ∧
      (name ≠ ['.'] → name.head? ≠ some '.') ∧
      ('.' ∈ name → [] ∈ name.splitOn '.' → name ≠ ['.'] →
        ∀ item ∈ ctx, ∀ v, ¬ Leads item (name.splitOn '.') v) := by
  by_cases hmem : '.' ∈ name
  · by_cases hdot : name = ['.']
    · subst hdot
      constructor
      · rintro ⟨n, r, hget, -⟩
        refine ⟨?_, fun h => absurd rfl h, fun _ _ h => absurd rfl h⟩
        rintro - rfl
        cases hget
      · rintro ⟨hctx, -⟩
        obtain ⟨item, ctx, rfl⟩ := List.exists_cons_of_ne_nil (hctx rfl)
        exact ⟨0, some item, rfl, fun _ => rfl, fun h => absurd hmem h,
          fun h => absurd rfl h, fun h => absurd rfl h⟩
    · have hled := firstLed_getPath (name.splitOn '.') ctx
      constructor
      · rintro ⟨n, r, hget, hright⟩
        obtain ⟨hhead, rfl⟩ := (Context.getWithin_dotted_iff ctx hdot hmem r).1 ⟨n, hget⟩
        exact ⟨fun h => absurd h hdot, fun _ => hhead,
          fun _ hblank _ => hled.none_iff.1 (hright.blank hdot hmem hblank)⟩
      · rintro ⟨-, hhead, hblank⟩
        obtain ⟨n, hget⟩ :=
          (Context.getWithin_dotted_iff ctx hdot hmem _).2 ⟨hhead hdot, rfl⟩
        exact ⟨n, _, hget, fun h => absurd h hdot, fun h => absurd hmem h,
          fun _ _ _ => hled, fun _ _ h => hled.none_iff.2 (hblank hmem h hdot)⟩
  · have hdot := ne_dot_of_not_mem hmem
    have hhead : name.head? ≠ some '.' := fun h => hmem (List.mem_of_head? h)
    exact iff_of_true
      ⟨0, ctx.getName name, Context.getWithin_plain ctx hmem, fun h => absurd h hdot,
        fun _ => getName_eq_firstWith name ctx, fun _ h => absurd h hmem,
        fun _ h => absurd h hmem⟩
      ⟨fun h => absurd h hdot, fun _ => hhead, fun h => absurd h hmem⟩

/-- The name `.` reads the first variable of a stack without variables. -/
theorem not_looksUp_dot : ¬ ∀ name ctx, LooksUp name ctx := by
  intro h
  obtain ⟨n, r, hget, -⟩ := h ['.'] []
  cases hget

end Webpp.Views
