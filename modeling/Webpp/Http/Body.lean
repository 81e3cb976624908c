import Mathlib.Algebra.Group.Int.Defs
import Mathlib.Data.Int.Basic
import Mathlib.Data.PNat.Basic
import Webpp.Foundation.Run

/-!
# Bodies

A body has nothing in it, a text, or the bytes of a c-stream. The first call that writes to it
decides which one it is, and the other calls go by that. A c-stream writes new bytes before
the ones it has, and reads from an index that only `read` and `seek` change.
-/

namespace Webpp.Http

/-- `std::clamp`. -/
def clamp (value low high : ℤ) : ℤ :=
  if value < low then low else if high < value then high else value

/-- What a call of `read` leads to: the number that it returns and that many bytes of the
buffer, how many bytes it has copied there, and what is read from later. -/
structure ReadResult (σ : Type) where
  returned : ℤ
  bytes : List Char
  copied : ℕ
  next : σ

/-! ## C-streams -/

/-- `cstream_response_body_communicator`. -/
structure CStream where
  bytes : List Char := []
  index : ℕ := 0
  deriving DecidableEq

namespace CStream

/-- All the bytes are written, at the begin of the vector. -/
def write (data : List Char) (stream : CStream) : CStream :=
  { stream with bytes := data ++ stream.bytes }

/-- The size less the index is below zero if it is made a `streamsize` where it wraps. -/
def read (count : ℤ) (stream : CStream) : ReadResult CStream :=
  let count := clamp count 0 ((stream.bytes.length : ℤ) - stream.index)
  { returned := count
    bytes := (stream.bytes.drop stream.index).take count.toNat
    copied := count.toNat
    next := { stream with index := ((stream.index : ℤ) + count).toNat } }

/-- The count is made a `size_t` first. -/
def seek (count : ℤ) (stream : CStream) : CStream :=
  { stream with index := min (count % 2 ^ 64).toNat stream.bytes.length }

/-- `clear` is the one of the vector. -/
def clear (stream : CStream) : CStream := { stream with bytes := [] }

end CStream

/-! ## Bodies -/

/-- `body_reader` and `body_writer`, by the kind of their communicator. -/
inductive Body where
  | nothing
  | textBased (str : List Char)
  | cstreamBased (stream : CStream)
  deriving DecidableEq

/-- The largest `streamsize`. -/
def streamsizeMax : ℤ := 2 ^ 63 - 1

namespace Body

/-- The loop over a c-stream ends with a write of no bytes. -/
def append (data : List Char) : Body → Body
  | textBased str => textBased (str ++ data)
  | cstreamBased stream => cstreamBased ((stream.write data).write [])
  | nothing => textBased data

def clear : Body → Body
  | textBased _ => textBased []
  | cstreamBased stream => cstreamBased stream.clear
  | nothing => nothing

def write (data : List Char) : Body → Body
  | cstreamBased stream => cstreamBased (stream.write data)
  | textBased str => textBased (str ++ data)
  | nothing => cstreamBased (CStream.write data {})

def size : Body → ℕ
  | textBased str => str.length
  | nothing => 0
  | cstreamBased stream => stream.bytes.length

def bytes : Body → List Char
  | nothing => []
  | textBased str => str
  | cstreamBased stream => stream.bytes

/-- A text is copied as far as the buffer goes, and zero is returned. -/
def read (count : ℤ) : Body → ReadResult Body
  | cstreamBased stream =>
      let r := stream.read count
      ⟨r.returned, r.bytes, r.copied, cstreamBased r.next⟩
  | textBased str => ⟨0, [], count.toNat, textBased str⟩
  | nothing => ⟨0, [], 0, nothing⟩

/-- `deserialize_cstream_body`: the text gets the size of the body before the body is read
into it. -/
def deserializeCstreamBody (stream : CStream) : List Char × CStream :=
  let r := stream.read streamsizeMax
  (r.bytes ++ List.replicate (stream.bytes.length - r.copied) '\x00', r.next)

/-- `as_string`, with the body after it: the index changes even if the body is `const`. -/
def asString : Body → List Char × Body
  | nothing => ([], nothing)
  | textBased str => (str, textBased str)
  | cstreamBased stream =>
      let r := deserializeCstreamBody stream
      (r.1, cstreamBased r.2)

/-- `operator==` of two bodies that are not the same object. -/
def equals : Body → Body → Bool
  | nothing, nothing => true
  | textBased str, textBased other =>
      str.length == other.length && str == other.take str.length
  | _, _ => false

/-- The copy, and the body that is copied from. -/
def copyConstruct (other : Body) : Body × Body :=
  let str := other.asString
  (textBased str.1, str.2)

/-- `operator=` of another body, which drops what the body has. -/
def copyAssign (_body other : Body) : Body × Body :=
  let str := other.asString
  (textBased str.1, str.2)

/-- `set` of a text, which is put in the place of what the body has. -/
def set (str : List Char) (_body : Body) : Body := textBased str

/-- `serialize_body` of a text, which `add` calls. -/
def add (str : List Char) : Body → Body
  | nothing => nothing.append str
  | textBased s => (textBased s).append str
  | cstreamBased stream => (cstreamBased stream).write str

end Body

end Webpp.Http

/-!
# Bodies as queues

What is written to a body is meant to be read from it in the same order. A c-stream reads the
bytes of the last call first, and a text cannot be read at all.
-/

namespace Webpp.Http

/-! ## Reading a body until nothing is left -/

/-- A call that fills a body. -/
inductive FillCall where
  | append (data : List Char)
  | write (data : List Char)

namespace FillCall

def data : FillCall → List Char
  | append data => data
  | write data => data

def apply (body : Body) : FillCall → Body
  | append data => body.append data
  | write data => body.write data

/-- The body that the calls fill. -/
def fill (calls : List FillCall) : Body := Run.run apply .nothing calls

/-- The bytes in the order of the calls. -/
def content (calls : List FillCall) : List Char := calls.flatMap data

end FillCall

/-- A call of `read` copies no more than the body has and than the buffer takes. -/
def CopiesWithin (size : ℕ+) (body : Body) : Prop :=
  (body.read (size : ℕ)).copied ≤ body.size ∧ (body.read (size : ℕ)).copied ≤ (size : ℕ)

/-- With buffers of these sizes, `read` returns zero at last and has yielded the bytes. -/
inductive Drains : (ℕ → ℕ+) → Body → List Char → Prop where
  | done {sizes : ℕ → ℕ+} {body : Body} (hwithin : CopiesWithin (sizes 0) body)
      (h : (body.read (sizes 0 : ℕ)).returned = 0) : Drains sizes body []
  | more {sizes : ℕ → ℕ+} {body : Body} {bytes : List Char}
      (hwithin : CopiesWithin (sizes 0) body) (h : (body.read (sizes 0 : ℕ)).returned ≠ 0)
      (rest : Drains (fun n => sizes (n + 1)) (body.read (sizes 0 : ℕ)).next bytes) :
      Drains sizes body ((body.read (sizes 0 : ℕ)).bytes ++ bytes)

theorem Drains.unique {sizes : ℕ → ℕ+} {body : Body} {bytes bytes' : List Char}
    (h : Drains sizes body bytes) (h' : Drains sizes body bytes') : bytes = bytes' := by
  induction h generalizing bytes' with
  | done _ h =>
      cases h' with
      | done _ _ => rfl
      | more _ hne _ => exact absurd h hne
  | more _ hne _ ih =>
      cases h' with
      | done _ h => exact absurd h hne
      | more _ _ rest => rw [ih rest]

/-! ## C-streams -/

namespace CStream

/-- What has not been read. -/
def unread (stream : CStream) : List Char := stream.bytes.drop stream.index

/-- Where the index is not behind the end, a buffer gets the next bytes that it can take. -/
theorem read_of_index_le {stream : CStream} (h : stream.index ≤ stream.bytes.length) (size : ℕ) :
    stream.read size =
      ⟨(min size stream.unread.length : ℕ), stream.unread.take size,
        min size stream.unread.length,
        { stream with index := stream.index + min size stream.unread.length }⟩ := by
  have hunread : stream.unread.length = stream.bytes.length - stream.index := List.length_drop
  have hcount : clamp (size : ℤ) 0 ((stream.bytes.length : ℤ) - stream.index) =
      (min size stream.unread.length : ℕ) := by
    rw [clamp, hunread]
    split_ifs <;> omega
  have hindex : ((stream.index : ℤ) + (min size stream.unread.length : ℕ)).toNat =
      stream.index + min size stream.unread.length := by
    rw [← Int.natCast_add, Int.toNat_natCast]
  have htake : (stream.bytes.drop stream.index).take (min size stream.unread.length) =
      stream.unread.take size := by
    rw [← List.take_take, unread, List.take_length]
  rw [read, hcount, Int.toNat_natCast, hindex, htake]

theorem unread_skip (stream : CStream) (size : ℕ) :
    stream.unread.take size ++
      unread { stream with index := stream.index + min size stream.unread.length } =
        stream.unread := by
  have hskip : unread { stream with index := stream.index + min size stream.unread.length } =
      stream.unread.drop (min size stream.unread.length) := by
    rw [unread, unread, List.drop_drop]
  rw [hskip]
  rcases Nat.le_total size stream.unread.length with hle | hle
  · rw [Nat.min_eq_left hle, List.take_append_drop]
  · rw [Nat.min_eq_right hle, List.take_of_length_le hle, List.drop_length, List.append_nil]

theorem drains_unread {stream : CStream} (h : stream.index ≤ stream.bytes.length)
    (sizes : ℕ → ℕ+) : Drains sizes (.cstreamBased stream) stream.unread := by
  generalize hrest : stream.unread.length = rest
  induction rest using Nat.strongRecOn generalizing stream sizes with
  | _ rest ih =>
      have hlength : stream.unread.length = stream.bytes.length - stream.index :=
        List.length_drop
      have hread := read_of_index_le h (sizes 0)
      generalize hnext : { stream with
        index := stream.index + min (sizes 0 : ℕ) stream.unread.length } = next at hread
      have hbody : (Body.cstreamBased stream).read ((sizes 0 : ℕ) : ℤ) =
          ⟨(min (sizes 0 : ℕ) stream.unread.length : ℕ), stream.unread.take (sizes 0 : ℕ),
            min (sizes 0 : ℕ) stream.unread.length, .cstreamBased next⟩ := by
        rw [Body.read, hread]
      have hwithin : CopiesWithin (sizes 0) (.cstreamBased stream) := by
        rw [CopiesWithin, hbody]
        refine ⟨Nat.le_trans (Nat.min_le_right _ _) ?_, Nat.min_le_left _ _⟩
        rw [hlength]
        exact Nat.sub_le _ _
      have hskip := unread_skip stream (sizes 0)
      rw [hnext] at hskip
      rcases Nat.eq_zero_or_pos rest with hzero | hpos
      · have hnil : stream.unread = [] := List.length_eq_zero_iff.mp (hrest.trans hzero)
        rw [hnil]
        refine .done hwithin ?_
        rw [hbody, hnil]
        exact congrArg Nat.cast (Nat.min_zero _)
      · have hmin : 0 < min (sizes 0 : ℕ) stream.unread.length :=
          Nat.lt_min.mpr ⟨(sizes 0).pos, hrest ▸ hpos⟩
        have hindex : next.index ≤ next.bytes.length := by
          rw [← hnext]
          change stream.index + min (sizes 0 : ℕ) stream.unread.length ≤ stream.bytes.length
          omega
        have hless : next.unread.length < rest := by
          have hsum := congrArg List.length hskip
          rw [List.length_append, List.length_take] at hsum
          omega
        have hmore := Drains.more hwithin
          (by rw [hbody]; exact Int.natCast_ne_zero.mpr (Nat.ne_of_gt hmin))
          (by rw [hbody]; exact ih _ hless hindex (fun n => sizes (n + 1)) rfl)
        rw [hbody, hskip] at hmore
        exact hmore

/-! ## The index -/

/-- A call on the c-stream communicator. -/
inductive Op where
  | write (data : List Char)
  | read (count : ℤ)
  | seek (count : ℤ)
  | clear

def step (stream : CStream) : Op → CStream
  | .write data => stream.write data
  | .read count => (stream.read count).next
  | .seek count => stream.seek count
  | .clear => stream.clear

/-- The index is not behind the end. -/
def InBounds (stream : CStream) : Prop := stream.index ≤ stream.bytes.length

/-- `clear` keeps the index, so it has to be called before anything is read. -/
def ClearsUnread (stream : CStream) (op : Op) : Prop := op = .clear → stream.index = 0

theorem inBounds_read {stream : CStream} (h : InBounds stream) (count : ℤ) :
    InBounds (stream.read count).next := by
  have hclamp : clamp count 0 ((stream.bytes.length : ℤ) - stream.index) ≤
      (stream.bytes.length : ℤ) - stream.index := by
    rw [InBounds] at h
    rw [clamp]
    split_ifs <;> omega
  rw [InBounds, read]
  change ((stream.index : ℤ) + clamp count 0 _).toNat ≤ stream.bytes.length
  rw [Int.toNat_le]
  omega

theorem inBounds_step_iff {stream : CStream} (h : InBounds stream) (op : Op) :
    InBounds (step stream op) ↔ ClearsUnread stream op := by
  cases op with
  | write data =>
      refine iff_of_true ?_ (fun heq => Op.noConfusion heq)
      rw [InBounds, step, write, List.length_append]
      exact Nat.le_trans h (Nat.le_add_left _ _)
  | read count => exact iff_of_true (inBounds_read h count) (fun heq => Op.noConfusion heq)
  | seek count => exact iff_of_true (Nat.min_le_right _ _) (fun heq => Op.noConfusion heq)
  | clear =>
      rw [ClearsUnread, forall_prop_of_true rfl]
      exact Nat.le_zero

theorem atEach_inBounds_iff (ops : List Op) :
    Run.AtEach step (fun stream op => InBounds (step stream op)) {} ops ↔
      Run.AtEach step ClearsUnread {} ops :=
  Run.atEach_iff_of_invariant InBounds (fun _ _ h hC => (inBounds_step_iff h _).mpr hC)
    (fun _ _ h => inBounds_step_iff h _) (s := {}) (Nat.le_refl 0) ops

end CStream

/-! ## Filled bodies -/

namespace FillCall

/-- Nothing is written, or it is written to a c-stream, where the bytes of the last call come
first, and they are the same in that order. -/
def KeepsOrder : List FillCall → Prop
  | [] => True
  | append _ :: _ => False
  | write bytes :: calls =>
      (write bytes :: calls).reverse.flatMap data = content (write bytes :: calls)

theorem fill_append_from (str : List Char) (calls : List FillCall) :
    Run.run apply (.textBased str) calls = .textBased (str ++ content calls) := by
  induction calls generalizing str with
  | nil => exact congrArg Body.textBased (List.append_nil str).symm
  | cons call calls ih =>
      have hcall : apply (.textBased str) call = .textBased (str ++ call.data) := by
        cases call with
        | append data => rfl
        | write data => rfl
      rw [Run.run_cons, hcall, ih, List.append_assoc]
      rfl

theorem fill_write_from (stream : CStream) (calls : List FillCall) :
    Run.run apply (.cstreamBased stream) calls =
      .cstreamBased { stream with bytes := calls.reverse.flatMap data ++ stream.bytes } := by
  induction calls generalizing stream with
  | nil => rfl
  | cons call calls ih =>
      have hcall : apply (.cstreamBased stream) call = .cstreamBased (stream.write call.data) := by
        cases call with
        | append data => rfl
        | write data => rfl
      rw [Run.run_cons, hcall, ih, List.reverse_cons, List.flatMap_append, List.append_assoc,
        List.flatMap_singleton]
      rfl

theorem not_drains_text (sizes : ℕ → ℕ+) (str : List Char) :
    ¬ Drains sizes (.textBased str) str := by
  intro h
  have hempty : ∀ bytes, Drains sizes (.textBased str) bytes → bytes = [] ∧ str ≠ [] := by
    intro bytes hbytes
    cases hbytes with
    | done hwithin _ =>
        have hsize : (sizes 0 : ℕ) ≤ str.length := hwithin.1
        exact ⟨rfl, List.ne_nil_of_length_pos (Nat.lt_of_lt_of_le (sizes 0).pos hsize)⟩
    | more _ hne _ => exact absurd rfl hne
  exact (hempty str h).2 (hempty str h).1

theorem drains_nothing (sizes : ℕ → ℕ+) : Drains sizes .nothing [] :=
  .done ⟨Nat.le_refl 0, Nat.zero_le _⟩ rfl

theorem drains_fill_iff (calls : List FillCall) (sizes : ℕ → ℕ+) :
    Drains sizes (fill calls) (content calls) ↔ KeepsOrder calls := by
  match calls with
  | [] => exact iff_of_true (drains_nothing sizes) trivial
  | append bytes :: calls =>
      have hfill : fill (append bytes :: calls) =
          .textBased (content (append bytes :: calls)) := fill_append_from bytes calls
      rw [hfill]
      exact iff_of_false (not_drains_text sizes _) id
  | write bytes :: calls =>
      have hfill : fill (write bytes :: calls) =
          .cstreamBased { bytes := (write bytes :: calls).reverse.flatMap data } := by
        rw [List.reverse_cons, List.flatMap_append, List.flatMap_singleton]
        exact (fill_write_from _ calls).trans
          (congrArg (fun b => Body.cstreamBased { bytes := calls.reverse.flatMap data ++ b })
            (List.append_nil bytes))
      have hdrains : Drains sizes (fill (write bytes :: calls))
          ((write bytes :: calls).reverse.flatMap data) := by
        rw [hfill]
        exact CStream.drains_unread (Nat.zero_le _) sizes
      exact ⟨fun h => hdrains.unique h, fun h => h ▸ hdrains⟩

/-- A body is a queue of its bytes exactly if nothing is written to it or it is a c-stream whose
bytes are the same with the last call first, and the index of a c-stream stays within its
bytes exactly as long as nothing has been read when it is cleared. -/
theorem isQueue_iff (calls : List FillCall) (sizes : ℕ → ℕ+) (ops : List CStream.Op) :
    (Drains sizes (fill calls) (content calls) ↔ KeepsOrder calls) ∧
    (Run.AtEach CStream.step (fun stream op => CStream.InBounds (CStream.step stream op)) {} ops ↔
      Run.AtEach CStream.step CStream.ClearsUnread {} ops) :=
  ⟨drains_fill_iff calls sizes, CStream.atEach_inBounds_iff ops⟩

/-- What is written second is read first. -/
theorem not_isQueue_writes :
    ¬ ∀ (calls : List FillCall) (sizes : ℕ → ℕ+), Drains sizes (fill calls) (content calls) := by
  intro h
  have hdrains : Drains (fun _ => 2) (.cstreamBased ⟨['b', 'a'], 0⟩) ['b', 'a'] :=
    CStream.drains_unread (Nat.zero_le _) fun _ => 2
  have hread := (h [write ['a'], write ['b']] fun _ => 2).unique hdrains
  exact absurd hread (by decide)

end FillCall

end Webpp.Http
