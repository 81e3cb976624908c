import Webpp.Http.Body

/-!
# Copies of bodies

A copy is always a text: the original is read into it through a `const` member that moves the
index of a c-stream. Only a text can be copied without anyone noticing.
-/

namespace Webpp.Http

/-- The ways to copy a body; an assignment has a target. -/
inductive Copying where
  | construct
  | assign (target : Body)

/-- The copy, and the original afterwards. -/
def Copying.copy (original : Body) : Copying → Body × Body
  | construct => Body.copyConstruct original
  | assign target => Body.copyAssign target original

namespace Body

/-- What has not been read. A text is read as a whole, and as often as one likes. -/
def unread : Body → List Char
  | nothing => []
  | textBased str => str
  | cstreamBased stream => stream.unread

def isText : Body → Bool
  | textBased _ => true
  | _ => false

/-- A copy equals the original and the same is left to be read from it, copying leaves the
original as it is, and the string of a body has no other bytes than the body. -/
structure CopiesFaithfully (original : Body) (copying : Copying) : Prop where
  equal : (copying.copy original).1.equals (copying.copy original).2 = true
  unread : (copying.copy original).1.unread = original.unread
  kept : (copying.copy original).2.unread = original.unread
  string : original.asString.1 ⊆ original.bytes

/-- The index of a c-stream is not behind its end, and its vector has a size that a
`streamsize` can hold. -/
def Valid : Body → Prop
  | cstreamBased stream => stream.InBounds ∧ stream.bytes.length < 2 ^ 63
  | _ => True

/-- Nothing has been read from a c-stream. -/
def Untouched : Body → Prop
  | cstreamBased stream => stream.index = 0
  | _ => True

def isCStream : Body → Bool
  | cstreamBased _ => true
  | _ => false

/-- A copy is a text that begins with what is left to be read from the original. A text is
equal to its copy, a c-stream is not, and only a c-stream is changed when it is copied. -/
structure CopiesAsText (original : Body) (copying : Copying) : Prop where
  isText : (copying.copy original).1.isText = true
  equal_text : original.isText = true →
    (copying.copy original).1.equals (copying.copy original).2 = true
  equal_cstream : original.isCStream = true →
    (copying.copy original).1.equals (copying.copy original).2 = false
  unread : original.unread <+: (copying.copy original).1.unread
  unread_eq : original.Untouched → (copying.copy original).1.unread = original.unread
  kept : original.isCStream = false → (copying.copy original).2 = original
  string : original.Untouched → original.asString.1 ⊆ original.bytes

theorem copy_eq (original : Body) (copying : Copying) :
    copying.copy original = (textBased original.asString.1, original.asString.2) := by
  cases copying with
  | construct => rfl
  | assign target => rfl

/-! ## The string of a c-stream -/

section CStream

variable {stream : CStream} (hbounds : stream.index ≤ stream.bytes.length)
include hbounds

theorem length_unread_lt (h : stream.bytes.length < 2 ^ 63) :
    min (2 ^ 63 - 1) stream.unread.length = stream.unread.length := by
  have hlength : stream.unread.length = stream.bytes.length - stream.index := List.length_drop
  exact Nat.min_eq_right (by omega)

theorem asString_cstreamBased (h : stream.bytes.length < 2 ^ 63) :
    (cstreamBased stream).asString =
      (stream.unread ++ List.replicate stream.index '\x00',
        cstreamBased { stream with index := stream.bytes.length }) := by
  have hlength : stream.unread.length = stream.bytes.length - stream.index := List.length_drop
  have hread := CStream.read_of_index_le hbounds (2 ^ 63 - 1)
  rw [length_unread_lt hbounds h, List.take_of_length_le (by omega)] at hread
  have hmax : streamsizeMax = ((2 ^ 63 - 1 : ℕ) : ℤ) := rfl
  have hzeros : stream.bytes.length - stream.unread.length = stream.index := by omega
  have hend : stream.index + stream.unread.length = stream.bytes.length := by omega
  rw [asString, deserializeCstreamBody, hmax, hread, hzeros, hend]

theorem unread_copy_iff (h : stream.bytes.length < 2 ^ 63) (copying : Copying) :
    (copying.copy (cstreamBased stream)).1.unread = stream.unread ↔ stream.index = 0 := by
  rw [copy_eq, asString_cstreamBased hbounds h]
  change stream.unread ++ List.replicate stream.index '\x00' = stream.unread ↔ _
  rw [List.append_right_eq_self, List.replicate_eq_nil_iff]

end CStream

theorem equals_textBased (str : List Char) : (textBased str).equals (textBased str) = true := by
  rw [equals, List.take_length, beq_self_eq_true, beq_self_eq_true]
  rfl

theorem equals_cstreamBased (body : Body) (stream : CStream) :
    body.equals (cstreamBased stream) = false := by
  cases body with
  | nothing => rfl
  | textBased str => rfl
  | cstreamBased stream => rfl

theorem copiesAsText_nothing (copying : Copying) : CopiesAsText nothing copying where
  isText := by rw [copy_eq, isText]
  equal_text h := absurd h Bool.false_ne_true
  equal_cstream h := absurd h Bool.false_ne_true
  unread := List.nil_prefix
  unread_eq _ := by
    rw [copy_eq]
    rfl
  kept _ := by
    rw [copy_eq]
    rfl
  string _ := List.Subset.refl []

theorem copiesAsText_text (str : List Char) (copying : Copying) :
    CopiesAsText (textBased str) copying where
  isText := by rw [copy_eq, isText]
  equal_text _ := by
    rw [copy_eq]
    exact equals_textBased str
  equal_cstream h := absurd h Bool.false_ne_true
  unread := by
    rw [copy_eq]
    exact List.prefix_rfl
  unread_eq _ := by
    rw [copy_eq]
    rfl
  kept _ := by
    rw [copy_eq]
    rfl
  string _ := List.Subset.refl str

theorem copiesAsText_cstream {stream : CStream} (h : (cstreamBased stream).Valid)
    (copying : Copying) : CopiesAsText (cstreamBased stream) copying where
  isText := by rw [copy_eq, isText]
  equal_text h := absurd h Bool.false_ne_true
  equal_cstream _ := by
    rw [copy_eq, asString_cstreamBased h.1 h.2]
    exact equals_cstreamBased _ _
  unread := by
    rw [copy_eq, asString_cstreamBased h.1 h.2]
    exact List.prefix_append _ _
  unread_eq huntouched := (unread_copy_iff h.1 h.2 copying).mpr huntouched
  kept h := nomatch h
  string huntouched := by
    have hindex : stream.index = 0 := huntouched
    have hbytes : stream.unread = stream.bytes := by
      rw [CStream.unread, hindex, List.drop_zero]
    rw [asString_cstreamBased h.1 h.2, hindex, hbytes, List.replicate_zero, List.append_nil]
    exact List.Subset.refl stream.bytes

/-- What copying does to a body, by its kind. -/
theorem copiesAsText {original : Body} (h : original.Valid) (copying : Copying) :
    CopiesAsText original copying := by
  cases original with
  | nothing => exact copiesAsText_nothing copying
  | textBased str => exact copiesAsText_text str copying
  | cstreamBased stream => exact copiesAsText_cstream h copying

/-- The copy of a c-stream of which one byte has been read. -/
theorem copiesAsText_read : CopiesAsText (cstreamBased ⟨['a', 'b'], 1⟩) .construct := by
  apply copiesAsText
  constructor
  · exact Nat.le_succ 1
  · decide

theorem copiesFaithfully_iff (original : Body) (copying : Copying) :
    CopiesFaithfully original copying ↔ original.isText = true := by
  constructor
  · intro h
    have hequal := h.equal
    rw [copy_eq] at hequal
    cases original with
    | nothing => exact absurd hequal Bool.false_ne_true
    | textBased str => rfl
    | cstreamBased stream => exact absurd hequal Bool.false_ne_true
  · intro h
    cases original with
    | nothing => exact absurd h Bool.false_ne_true
    | cstreamBased stream => exact absurd h Bool.false_ne_true
    | textBased str =>
        have hcopies := copiesAsText_text str copying
        exact ⟨hcopies.equal_text rfl, hcopies.unread_eq trivial,
          congrArg unread (hcopies.kept rfl), hcopies.string trivial⟩

/-- A copy of a c-stream that has been read in parts has a byte that was never written. -/
theorem not_copiesFaithfully_read :
    ¬ ∀ (original : Body) (copying : Copying), CopiesFaithfully original copying := by
  intro h
  have hunread := (h (cstreamBased ⟨['a', 'b'], 1⟩) .construct).unread
  exact absurd hunread (by decide)

end Body

end Webpp.Http
