import Mathlib.Data.List.Induction
import Webpp.Storage.DirectoryFile

/-!
# Gates that share a directory

The entries of gates in one directory are kept apart by the names of their files, and
`is_our_cache` is to know the files of a gate. Nothing else is compared: the key in a file is
not checked, and the hash of a name may start with the hash of another one.
-/

namespace Webpp.Storage

open Webpp.Crypto

variable {ι : Type*} {K V O : ι → Type*} {pre' : List (DirectoryOp K V O)} {op : DirectoryOp K V O}

/-! ## Calls -/

namespace DirectoryOp

/-- The gate that is called. -/
def gate : DirectoryOp K V O → ι
  | set i _ _ _ => i
  | setOptions i _ _ => i
  | get i _ => i
  | erase i _ => i
  | eraseIf i _ => i
  | clear i => i

/-- The key of a call, on its gate. -/
def slot : DirectoryOp K V O → Option (Sigma K)
  | set i key _ _ => some ⟨i, key⟩
  | setOptions i key _ => some ⟨i, key⟩
  | get i key => some ⟨i, key⟩
  | erase i key => some ⟨i, key⟩
  | eraseIf _ _ => none
  | clear _ => none

end DirectoryOp

/-- The keys that are used. -/
def slots (ops : List (DirectoryOp K V O)) : List (Sigma K) := ops.filterMap DirectoryOp.slot

section Gates

variable (system : DirectorySystem) (gates : ∀ i, DirectoryGate (K i) (V i) (O i))

/-- The name of the file of a key. -/
def slotPath (p : Sigma K) : List Char := (gates p.1).keyPath system p.2

/-- The lines in front of a value are one line each. -/
def OneLine (i : ι) (key : K i) (opts : O i) : Prop :=
  '\n' ∉ (gates i).casts.key.toText key ∧
    ((gates i).gateOpts.encodeOptions = false → '\n' ∉ (gates i).casts.options.toText opts)

/-- No two keys that are used have one file, no gate that is cleared takes a file of another
gate for its own, and no key or option that is written has a newline. -/
structure SeparateFiles (ops : List (DirectoryOp K V O)) : Prop where
  paths : ∀ p ∈ slots ops, ∀ q ∈ slots ops,
    slotPath system gates p = slotPath system gates q → p = q
  foreign : ∀ op ∈ ops, op.slot = none → ∀ q ∈ slots ops, q.1 ≠ op.gate →
    (gates op.gate).isOurCache system (slotPath system gates q) = false
  setLines : ∀ i key value opts, .set i key value opts ∈ ops → OneLine gates i key opts
  setOptionsLines : ∀ i key opts, .setOptions i key opts ∈ ops → OneLine gates i key opts

/-! ## Isolation -/

/-- The value was stored under the key on this gate, by `set`, or as the empty value of
`set_options`. -/
def StoredUnder (ops : List (DirectoryOp K V O)) (p : Sigma K) (value : V p.1) : Prop :=
  (∃ opts, .set p.1 p.2 value opts ∈ ops) ∨
    value = (gates p.1).emptyValue ∧ ∃ opts, .setOptions p.1 p.2 opts ∈ ops

/-- A call after the calls `pre` on files `d`: `get` returns what was stored under the key,
and no other gate returns anything else than before. -/
structure IsolatedCall (ops pre : List (DirectoryOp K V O)) (d : Directory)
    (op : DirectoryOp K V O) : Prop where
  own : ∀ i key, op = .get i key → ∀ data, (gates i).get system d key = some data →
    StoredUnder gates pre ⟨i, key⟩ data.value
  others : ∀ d', op.step system gates d = .ok d' → ∀ q ∈ slots ops, q.1 ≠ op.gate →
    (gates q.1).get system d' q.2 = (gates q.1).get system d q.2

/-- Every call of the run is isolated. -/
def Isolated (ops : List (DirectoryOp K V O)) : Prop :=
  ∀ pre op post, ops = pre ++ op :: post → ∀ d, runDirectory system gates pre = .ok d →
    IsolatedCall system gates ops pre d op

/-- Every file is the file of a key that is used, and has a value that was stored under it. -/
def Written (ops pre : List (DirectoryOp K V O)) (d : Directory) : Prop :=
  ∀ name content, d name = some content → ∃ p ∈ slots ops, ∃ value optsStr,
    name = slotPath system gates p ∧ StoredUnder gates pre p value ∧
      '\n' ∉ (gates p.1).casts.key.toText p.2 ∧ '\n' ∉ optsStr ∧
      content = (gates p.1).casts.key.toText p.2 ++
        '\n' :: (optsStr ++ '\n' :: (gates p.1).casts.value.toText value)

end Gates

/-! ## Files -/

section Files

variable {K V O : Type*}

theorem serializeFile_ok {casts : GateCasts K V O} {gateOpts : GateOptions} {key : K}
    {value : V} {opts : O}
    (h : gateOpts.encodeOptions = false → '\n' ∉ casts.options.toText opts) {content : List Char}
    (hok : serializeFile casts gateOpts ⟨key, value, opts⟩ = .ok content) :
    ∃ optsStr, '\n' ∉ optsStr ∧
      content = casts.key.toText key ++ '\n' :: (optsStr ++ '\n' :: casts.value.toText value) := by
  rw [serializeFile] at hok
  cases hopts : serializeOpts casts gateOpts opts with
  | error fault =>
      rw [hopts] at hok
      cases hok
  | ok optsStr =>
      rw [hopts] at hok
      refine ⟨optsStr, ?_, (Except.ok.inj hok).symm⟩
      rw [serializeOpts] at hopts
      cases hencode : gateOpts.encodeOptions with
      | false =>
          rw [hencode] at hopts
          rw [← Except.ok.inj hopts]
          exact h hencode
      | true =>
          rw [hencode] at hopts
          change encodeInPlace _ _ = _ at hopts
          by_cases hcapacity : encodeLen (casts.options.toText opts).length ≤
              casts.capacity (casts.options.toText opts).length
          · rw [encodeInPlace_eq hcapacity] at hopts
            rw [← Except.ok.inj hopts]
            exact Base64.newline_notMem_encode _
          · rw [encodeInPlace, if_pos (Nat.lt_of_not_le hcapacity)] at hopts
            cases hopts

theorem set_ok {system : DirectorySystem} {gate : DirectoryGate K V O} {d d' : Directory}
    {key : K} {value : V} {opts : O} (h : gate.set system d key value opts = .ok d') :
    d' = d ∨ ∃ content,
      serializeFile gate.casts gate.gateOpts ⟨key, value, opts⟩ = .ok content ∧
        d' = Function.update d (gate.keyPath system key) (some content) := by
  rw [DirectoryGate.set] at h
  split at h
  · cases hdata : serializeFile gate.casts gate.gateOpts ⟨key, value, opts⟩ with
    | error fault =>
        rw [hdata] at h
        cases h
    | ok content =>
        rw [hdata] at h
        exact .inr ⟨content, rfl, (Except.ok.inj h).symm⟩
  · exact .inl (Except.ok.inj h).symm

theorem set_ok_of_ne {system : DirectorySystem} {gate : DirectoryGate K V O} {d d' : Directory}
    {key : K} {value : V} {opts : O} (h : gate.set system d key value opts = .ok d')
    {name : List Char} (hname : name ≠ gate.keyPath system key) : d' name = d name := by
  rcases set_ok h with rfl | ⟨content, -, rfl⟩
  · rfl
  · exact Function.update_of_ne hname _ _

end Files

/-! ## The invariant -/

section Run

variable {system : DirectorySystem} {gates : ∀ i, DirectoryGate (K i) (V i) (O i)}
  {ops pre : List (DirectoryOp K V O)} {d d' : Directory}

theorem mem_slots {p : Sigma K} (h : op ∈ ops) (hslot : op.slot = some p) : p ∈ slots ops := List.mem_filterMap.mpr ⟨op, h, hslot⟩

theorem StoredUnder.mono (hsub : pre ⊆ pre') {p : Sigma K}
    {value : V p.1} (h : StoredUnder gates pre p value) : StoredUnder gates pre' p value := by
  rcases h with ⟨opts, hmem⟩ | ⟨hempty, opts, hmem⟩
  · exact .inl ⟨opts, hsub hmem⟩
  · exact .inr ⟨hempty, opts, hsub hmem⟩

theorem Written.of_subset (hsub : pre ⊆ pre') (h : Written system gates ops pre d)
    (hfiles : ∀ name content, d' name = some content → d name = some content) :
    Written system gates ops pre' d' := by
  intro name content hname
  obtain ⟨p, hp, value, optsStr, hpath, hstored, hrest⟩ :=
    h name content (hfiles name content hname)
  exact ⟨p, hp, value, optsStr, hpath, hstored.mono hsub, hrest⟩

/-- What `get` returns was stored under the key. -/
theorem Written.get (h : Written system gates ops pre d) (hops : SeparateFiles system gates ops)
    {p : Sigma K} (hp : p ∈ slots ops) {data : CacheTuple (K p.1) (V p.1) (O p.1)}
    (hget : (gates p.1).get system d p.2 = some data) :
    data.key = p.2 ∧ StoredUnder gates pre p data.value := by
  rw [DirectoryGate.get, DirectoryGate.getFile, Option.bind_eq_some_iff] at hget
  obtain ⟨content, hfile, hread⟩ := hget
  obtain ⟨q, hq, value, optsStr, hpath, hstored, hkey, hopts, rfl⟩ := h _ content hfile
  obtain rfl := hops.paths p hp q hq hpath
  rw [deserializeFile_append hkey hopts, Option.map_eq_some_iff] at hread
  obtain ⟨opts, -, rfl⟩ := hread
  exact ⟨rfl, hstored⟩

theorem Written.set (h : Written system gates ops pre d)
    (hsub : pre ⊆ pre') {i : ι} {key : K i} (hp : ⟨i, key⟩ ∈ slots ops) {value : V i}
    (hstored : StoredUnder gates pre' ⟨i, key⟩ value) {opts : O i}
    (hlines : OneLine gates i key opts) (hset : (gates i).set system d key value opts = .ok d') :
    Written system gates ops pre' d' := by
  rcases set_ok hset with rfl | ⟨content, hcontent, rfl⟩
  · exact h.of_subset hsub fun name content hname => hname
  · obtain ⟨optsStr, hoptsStr, heq⟩ := serializeFile_ok hlines.2 hcontent
    intro name content' hname
    by_cases hpath : name = (gates i).keyPath system key
    · have hnew : Function.update d ((gates i).keyPath system key) (some content) name =
          some content := by
        rw [hpath]
        exact Function.update_self _ _ _
      rw [hnew] at hname
      rw [← Option.some.inj hname]
      exact ⟨⟨i, key⟩, hp, value, optsStr, hpath, hstored, hlines.1, hoptsStr, heq⟩
    · rw [Function.update_of_ne hpath] at hname
      obtain ⟨p, hp, value, optsStr, hold, hstored, hrest⟩ := h name content' hname
      exact ⟨p, hp, value, optsStr, hold, hstored.mono hsub, hrest⟩

/-- `set_options` is `set` with a value that was stored under the key. -/
theorem Written.setOptions (h : Written system gates ops pre d)
    (hops : SeparateFiles system gates ops) {i : ι} {key : K i} {opts : O i}
    (hp : ⟨i, key⟩ ∈ slots ops)
    (hset : (gates i).setOptions system d key opts = .ok d') :
    ∃ value, StoredUnder gates (pre ++ [.setOptions i key opts]) ⟨i, key⟩ value ∧
      (gates i).set system d key value opts = .ok d' := by
  have hsub : pre ⊆ pre ++ [.setOptions i key opts] := List.subset_append_left _ _
  rw [DirectoryGate.setOptions] at hset
  cases hget : (gates i).get system d key with
  | none =>
      rw [hget] at hset
      exact ⟨_, .inr ⟨rfl, opts, List.mem_append_right _ (List.mem_singleton.mpr rfl)⟩, hset⟩
  | some data =>
      obtain ⟨hkey, hstored⟩ := h.get hops hp hget
      rw [hget] at hset
      change (gates i).set system d data.key data.value opts = .ok d' at hset
      rw [hkey] at hset
      exact ⟨data.value, hstored.mono hsub, hset⟩

theorem written_step (h : Written system gates ops pre d)
    (hops : SeparateFiles system gates ops) (hop : op ∈ ops)
    (hstep : op.step system gates d = .ok d') : Written system gates ops (pre ++ [op]) d' := by
  have hsub : pre ⊆ pre ++ [op] := List.subset_append_left _ _
  have hmem : op ∈ pre ++ [op] := List.mem_append_right _ (List.mem_singleton.mpr rfl)
  cases op with
  | set i key value opts =>
      exact h.set hsub (mem_slots hop rfl) (.inl ⟨opts, hmem⟩)
        (hops.setLines i key value opts hop) hstep
  | setOptions i key opts =>
      obtain ⟨value, hstored, hset⟩ := h.setOptions hops (mem_slots hop rfl) hstep
      exact h.set hsub (mem_slots hop rfl) hstored (hops.setOptionsLines i key opts hop) hset
  | get i key =>
      rw [← Except.ok.inj hstep]
      exact h.of_subset hsub fun name content hname => hname
  | erase i key =>
      rw [← Except.ok.inj hstep]
      refine h.of_subset hsub fun name content hname => ?_
      by_cases hpath : name = (gates i).keyPath system key
      · rw [DirectoryGate.erase, hpath, Function.update_self] at hname
        cases hname
      · rwa [DirectoryGate.erase, Function.update_of_ne hpath] at hname
  | eraseIf i predicate =>
      rw [← Except.ok.inj hstep]
      refine h.of_subset hsub fun name content hname => ?_
      rw [DirectoryGate.eraseIf] at hname
      split at hname
      · cases hname
      · exact hname
  | clear i =>
      rw [← Except.ok.inj hstep]
      refine h.of_subset hsub fun name content hname => ?_
      rw [DirectoryGate.clear] at hname
      split at hname
      · cases hname
      · exact hname

theorem runDirectory_concat (op : DirectoryOp K V O) :
    runDirectory system gates (pre ++ [op]) =
      (runDirectory system gates pre).bind fun d => op.step system gates d := by
  rw [runDirectory, List.foldlM_append, ← runDirectory]
  cases runDirectory system gates pre with
  | error fault => rfl
  | ok d =>
      change (op.step system gates d >>= pure) = op.step system gates d
      rw [bind_pure]

theorem written_run (hops : SeparateFiles system gates ops) (hpre : pre ⊆ ops)
    (hrun : runDirectory system gates pre = .ok d) : Written system gates ops pre d := by
  induction pre using List.reverseRecOn generalizing d with
  | nil =>
      rw [← Except.ok.inj hrun]
      exact fun name content hname => nomatch hname
  | append_singleton pre op ih =>
      rw [runDirectory_concat] at hrun
      cases hd : runDirectory system gates pre with
      | error fault =>
          rw [hd] at hrun
          cases hrun
      | ok d =>
          rw [hd] at hrun
          have hwritten := ih (fun op hop => hpre (List.mem_append_left _ hop)) hd
          exact written_step hwritten hops
            (hpre (List.mem_append_right _ (List.mem_singleton.mpr rfl))) hrun

/-! ## Isolation -/

theorem step_others (h : Written system gates ops pre d)
    (hops : SeparateFiles system gates ops) (hop : op ∈ ops)
    (hstep : op.step system gates d = .ok d') {q : Sigma K} (hq : q ∈ slots ops)
    (hgate : q.1 ≠ op.gate) : d' (slotPath system gates q) = d (slotPath system gates q) := by
  have hpath : ∀ p : Sigma K, p ∈ slots ops → p.1 = op.gate →
      slotPath system gates q ≠ slotPath system gates p := by
    intro p hp hpgate heq
    rw [hops.paths q hq p hp heq] at hgate
    exact hgate hpgate
  cases op with
  | set i key value opts =>
      exact set_ok_of_ne hstep (hpath ⟨i, key⟩ (mem_slots hop rfl) rfl)
  | setOptions i key opts =>
      obtain ⟨value, -, hset⟩ := h.setOptions hops (mem_slots hop rfl) hstep
      exact set_ok_of_ne hset (hpath ⟨i, key⟩ (mem_slots hop rfl) rfl)
  | get i key => rw [← Except.ok.inj hstep]
  | erase i key =>
      rw [← Except.ok.inj hstep]
      exact Function.update_of_ne (hpath ⟨i, key⟩ (mem_slots hop rfl) rfl) _ _
  | eraseIf i predicate =>
      have hforeign := hops.foreign _ hop rfl q hq hgate
      rw [← Except.ok.inj hstep, DirectoryGate.eraseIf]
      change (gates i).isOurCache system _ = false at hforeign
      rw [hforeign]
      rfl
  | clear i =>
      have hforeign := hops.foreign _ hop rfl q hq hgate
      rw [← Except.ok.inj hstep, DirectoryGate.clear]
      change (gates i).isOurCache system _ = false at hforeign
      rw [hforeign]
      rfl

end Run

/-- A gate from texts to texts that hashes a key by its length. -/
def lengthGate (name : List Char) : DirectoryGate (List Char) (List Char) UInt64 :=
  ⟨some name, {}, sizeCasts .string .string smallCapacity, fun key => UInt64.ofNat key.length, []⟩

def lengthGates (i : Bool) : DirectoryGate (List Char) (List Char) UInt64 :=
  lengthGate (if i then ['b'] else ['a'])

/-- A system where the name `a` has one hash, and every other one another. -/
def twoHashes (a b : UInt64) : DirectorySystem := ⟨fun name => if name = ['a'] then a else b,
  fun _ => true⟩

/-- One gate is cleared, and the other one keeps its file. -/
def clearedRun : List (DirectoryOp (fun _ : Bool => List Char) (fun _ => List Char)
    fun _ => UInt64) :=
  [.set true ['k'] ['v'] 0, .clear false]

end Webpp.Storage
