import Webpp.Http.Body
import Webpp.Http.Headers
import Webpp.Text.CharConv

/-!
# The length of a response

Adding a text to a response sets the header `Content-Length` to the length of that text, and
setting the body does not touch the header. The first text that is added decides what the
header says; the default is used only if there is none.
-/

namespace Webpp.Http

variable {res : CommonHttpResponse}

structure CommonHttpResponse where
  headers : HeadersContainer := {}
  body : Body := .nothing
  deriving DecidableEq

def contentLength : List Char := "Content-Length".toList

def contentType : List Char := "Content-Type".toList

namespace CommonHttpResponse

/-! ## The calls -/

/-- `set`, which leaves the headers as they are. -/
def set (str : List Char) (res : CommonHttpResponse) : CommonHttpResponse :=
  { res with body := res.body.set str }

/-- `operator=` of a text. -/
def assign (str : List Char) (res : CommonHttpResponse) : CommonHttpResponse := res.set str

/-- `serialize_response_body` of a text, where `libToChars` is `__cpp_lib_to_chars`. -/
def serializeResponseBody (libToChars : Bool) (str : List Char) (res : CommonHttpResponse) :
    CommonHttpResponse :=
  { headers := res.headers.set contentLength (Text.sizeText libToChars str.length)
    body := res.body.add str }

def add (libToChars : Bool) (str : List Char) (res : CommonHttpResponse) : CommonHttpResponse :=
  res.serializeResponseBody libToChars str

/-- `operator+=`. -/
def addAssign (libToChars : Bool) (str : List Char) (res : CommonHttpResponse) :
    CommonHttpResponse :=
  res.add libToChars str

/-- `calculate_default_headers`: both headers are looked for before one is set. -/
def calculateDefaultHeaders (libToChars : Bool) (res : CommonHttpResponse) :
    CommonHttpResponse :=
  let hasContentType := res.headers.has "content-type".toList
  let hasContentLength := res.headers.has "content-length".toList
  let headers :=
    if !hasContentType then res.headers.set contentType "text/html; charset=utf-8".toList
    else res.headers
  let headers :=
    if !hasContentLength then
      headers.set contentLength (Text.sizeText libToChars res.body.size)
    else headers
  { res with headers := headers }

end CommonHttpResponse

/-! ## Runs -/

/-- A call that gives a response a text. -/
inductive ResponseCall where
  | set (str : List Char)
  | assign (str : List Char)
  | add (str : List Char)
  | addAssign (str : List Char)

namespace ResponseCall

def apply (libToChars : Bool) (res : CommonHttpResponse) : ResponseCall → CommonHttpResponse
  | set str => res.set str
  | assign str => res.assign str
  | add str => res.add libToChars str
  | addAssign str => res.addAssign libToChars str

/-- The response after the calls. -/
def run (libToChars : Bool) (calls : List ResponseCall) : CommonHttpResponse :=
  Run.run (apply libToChars) {} calls

/-! ## What it is for -/

/-- The text that is added, if the call adds one. -/
def added : ResponseCall → Option (List Char)
  | set _ => none
  | assign _ => none
  | add str => some str
  | addAssign str => some str

/-- An assignment replaces the text. -/
def extend (text : List Char) : ResponseCall → List Char
  | set str => str
  | assign str => str
  | add str => text ++ str
  | addAssign str => text ++ str

/-- The texts since the last assignment, one behind the other. -/
def text (calls : List ResponseCall) : List Char := Run.run extend [] calls

/-- The body is the text, and the header is the size of the body, in digits. -/
structure TellsLength (libToChars : Bool) (calls : List ResponseCall) : Prop where
  header : ((run libToChars calls).calculateDefaultHeaders libToChars).headers.get contentLength =
    Nat.toDigits 10 ((run libToChars calls).calculateDefaultHeaders libToChars).body.size
  body : ((run libToChars calls).calculateDefaultHeaders libToChars).body.bytes = text calls

/-- The size that is written to the header: the length of the first text that is added, or of
the whole text. -/
def sizeInHeader (calls : List ResponseCall) : ℕ :=
  match calls.findSome? added with
  | some str => str.length
  | none => (text calls).length

/-! ## The body and the headers -/

/-- The body has this text and is no c-stream. -/
def Holds (text : List Char) (body : Body) : Prop :=
  body.bytes = text ∧ body.size = text.length ∧ ∀ str, body.add str = .textBased (text ++ str)

theorem holds_textBased (text : List Char) : Holds text (.textBased text) :=
  ⟨rfl, rfl, fun _ => rfl⟩

theorem holds_apply (libToChars : Bool) {text : List Char}
    (h : Holds text res.body) (call : ResponseCall) :
    Holds (extend text call) (apply libToChars res call).body := by
  have hadd : ∀ str, Holds (text ++ str) (res.body.add str) := by
    intro str
    rw [h.2.2 str]
    exact holds_textBased _
  cases call with
  | set str => exact holds_textBased str
  | assign str => exact holds_textBased str
  | add str => exact hadd str
  | addAssign str => exact hadd str

theorem holds_run_from (libToChars : Bool) {text : List Char}
    (h : Holds text res.body) (calls : List ResponseCall) :
    Holds (Run.run extend text calls) (Run.run (apply libToChars) res calls).body := by
  induction calls generalizing res text with
  | nil => exact h
  | cons call calls ih => exact ih (holds_apply libToChars h call)

theorem holds_run (libToChars : Bool) (calls : List ResponseCall) :
    Holds (text calls) (run libToChars calls).body :=
  holds_run_from libToChars ⟨rfl, rfl, fun _ => rfl⟩ calls

/-- The field that is set for a text that is added. -/
def lengthField (libToChars : Bool) (str : List Char) : HeaderField :=
  ⟨contentLength, Text.sizeText libToChars str.length⟩

theorem run_fields_from (libToChars : Bool) (res : CommonHttpResponse)
    (calls : List ResponseCall) :
    (Run.run (apply libToChars) res calls).headers.fields =
      res.headers.fields ++ (calls.filterMap added).map (lengthField libToChars) := by
  induction calls generalizing res with
  | nil => exact (List.append_nil _).symm
  | cons call calls ih =>
      rw [Run.run_cons, ih]
      cases call with
      | set str => rfl
      | assign str => rfl
      | add str => exact List.append_assoc _ [lengthField libToChars str] _
      | addAssign str => exact List.append_assoc _ [lengthField libToChars str] _

theorem run_fields (libToChars : Bool) (calls : List ResponseCall) :
    (run libToChars calls).headers.fields =
      (calls.filterMap added).map (lengthField libToChars) :=
  run_fields_from libToChars {} calls

/-! ## The header -/

theorem get_default (libToChars : Bool) (h : res.headers.fields = []) :
    (res.calculateDefaultHeaders libToChars).headers.get contentLength =
      Text.sizeText libToChars res.body.size := by
  obtain ⟨⟨fields⟩, body⟩ := res
  obtain rfl : fields = [] := h
  rfl

theorem get_of_cons (libToChars : Bool) {str : List Char}
    {fields : List HeaderField} (h : res.headers.fields = lengthField libToChars str :: fields) :
    (res.calculateDefaultHeaders libToChars).headers.get contentLength =
      Text.sizeText libToChars str.length := by
  have hfirst : ∀ headers : HeadersContainer, ∀ rest,
      headers.fields = lengthField libToChars str :: rest →
        headers.get contentLength = Text.sizeText libToChars str.length := by
    intro headers rest hfields
    rw [HeadersContainer.get, HeadersContainer.iter, hfields]
    rfl
  have hhas : res.headers.has "content-length".toList = true := by
    rw [HeadersContainer.has, h]
    rfl
  rw [CommonHttpResponse.calculateDefaultHeaders]
  simp only [hhas]
  cases res.headers.has "content-type".toList with
  | true => exact hfirst res.headers fields h
  | false =>
      refine hfirst _ (fields ++ [⟨contentType, "text/html; charset=utf-8".toList⟩]) ?_
      exact congrArg (· ++ [_]) h

theorem get_contentLength (libToChars : Bool) (calls : List ResponseCall) :
    ((run libToChars calls).calculateDefaultHeaders libToChars).headers.get contentLength =
      Text.sizeText libToChars (sizeInHeader calls) := by
  have hfields := run_fields libToChars calls
  have hfirst : (calls.filterMap added).head? = calls.findSome? added := List.head?_filterMap
  rw [sizeInHeader, ← hfirst]
  cases hadded : calls.filterMap added with
  | nil =>
      rw [hadded] at hfields
      rw [get_default libToChars hfields, (holds_run libToChars calls).2.1]
      rfl
  | cons str strs =>
      rw [hadded] at hfields
      exact get_of_cons libToChars hfields

/-- The header is right exactly if the size that is written to it has the digits of the length
of the text. -/
theorem tellsLength_iff (libToChars : Bool) (calls : List ResponseCall) :
    TellsLength libToChars calls ↔
      Text.WrittenAs libToChars (sizeInHeader calls) (text calls).length := by
  have hbody : ((run libToChars calls).calculateDefaultHeaders libToChars).body =
      (run libToChars calls).body := rfl
  have hholds := holds_run libToChars calls
  rw [← Text.sizeText_eq_toDigits_iff, ← get_contentLength, ← hholds.2.1, ← hbody]
  exact ⟨fun h => h.header, fun h => ⟨h, hholds.1⟩⟩

/-- The second text that is added is not counted. -/
theorem not_tellsLength_twice :
    ¬ ∀ (libToChars : Bool) (calls : List ResponseCall), TellsLength libToChars calls := by
  intro h
  have hheader := (h false [.add ['a'], .add ['b']]).header
  exact absurd hheader (by decide)

end ResponseCall

end Webpp.Http
