import Mathlib.Logic.Function.Basic
import Webpp.Foundation.Run
import Webpp.Foundation.SplitPair
import Webpp.Http.ResponseCookie

/-!
# Header fields

A container of headers is a list of fields. A name is looked up in any letter case and the
first field with that name is the one that counts, while `set` appends a new field: a name
that is set again keeps its old value.
-/

namespace Webpp.Http

variable {key : List Char} {calls : List HeaderCall} {call : HeaderCall}

/-! ## Names -/

/-- `iequals`: both texts are of unknown case. -/
def iequals (str1 str2 : List Char) : Bool :=
  str1.length == str2.length &&
    (str1.zip str2).all fun c => c.1 == c.2 || toLowerCopy c.1 == toLowerCopy c.2

/-- A name without its letter case. -/
def foldCase (name : List Char) : List Char := name.map toLowerCopy

theorem iequals_iff (str1 str2 : List Char) :
    iequals str1 str2 = true ↔ foldCase str1 = foldCase str2 := by
  induction str1 generalizing str2 with
  | nil =>
      cases str2 with
      | nil => exact iff_of_true rfl rfl
      | cons c str2 => exact iff_of_false Bool.false_ne_true (List.cons_ne_nil _ _).symm
  | cons c str1 ih =>
      cases str2 with
      | nil => exact iff_of_false Bool.false_ne_true (List.cons_ne_nil _ _)
      | cons d str2 =>
          have hchar : (c == d || toLowerCopy c == toLowerCopy d) = true ↔
              toLowerCopy c = toLowerCopy d := by
            rw [Bool.or_eq_true, beq_iff_eq, beq_iff_eq]
            exact or_iff_right_of_imp (congrArg toLowerCopy)
          have hrest := ih str2
          rw [iequals, Bool.and_eq_true, beq_iff_eq] at hrest
          rw [iequals, Bool.and_eq_true, beq_iff_eq, List.length_cons, List.length_cons,
            Nat.succ_inj, List.zip_cons_cons, List.all_cons, Bool.and_eq_true, hchar, foldCase,
            foldCase, List.map_cons, List.map_cons, List.cons_eq_cons, and_left_comm]
          exact and_congr_right fun _ => hrest

theorem iequals_eq_decide (str1 str2 : List Char) :
    iequals str1 str2 = decide (foldCase str1 = foldCase str2) := by
  rw [Bool.eq_iff_iff, iequals_iff, decide_eq_true_iff]

/-! ## The container -/

/-- `basic_header_field`. -/
structure HeaderField where
  name : List Char
  value : List Char
  deriving DecidableEq

def HeaderField.isName (field : HeaderField) (str : List Char) : Bool := iequals field.name str

/-- `headers_container`, whose fields are in a vector. -/
structure HeadersContainer where
  fields : List HeaderField := []
  deriving DecidableEq

/-- What `operator[]` returns; the container that it points to is passed to `assign`. -/
structure HeaderFieldReference where
  name : List Char
  value : List Char

namespace HeadersContainer

def emplace (headers : HeadersContainer) (name value : List Char) : HeadersContainer :=
  { headers with fields := headers.fields ++ [⟨name, value⟩] }

def iter (headers : HeadersContainer) (name : List Char) : Option HeaderField :=
  headers.fields.find? fun field => field.isName name

/-- The value is empty if there is no such field. -/
def get (headers : HeadersContainer) (name : List Char) : List Char :=
  match headers.iter name with
  | none => []
  | some field => field.value

def has (headers : HeadersContainer) (name : List Char) : Bool :=
  (headers.fields.find? fun field => field.isName name).isSome

def set (headers : HeadersContainer) (name newValue : List Char) : HeadersContainer :=
  headers.emplace name newValue

/-- `operator[]`. -/
def index (headers : HeadersContainer) (name : List Char) : HeaderFieldReference :=
  ⟨name, headers.get name⟩

/-- The fields that the loop of `string_to` goes through. -/
def written (headers : HeadersContainer) : List HeaderField := headers.fields

/-- `string_to`: a line for each field. -/
def stringTo (headers : HeadersContainer) : List Char :=
  headers.written.flatMap fun field =>
    field.name ++ [':', ' '] ++ field.value ++ ['\r', '\n']

end HeadersContainer

/-- `operator=` of a reference, which sets the field in the container. -/
def HeaderFieldReference.assign (ref : HeaderFieldReference) (newValue : List Char)
    (container : HeadersContainer) : HeaderFieldReference × HeadersContainer :=
  ({ ref with value := newValue }, container.set ref.name newValue)

/-! ## Runs -/

/-- A call that sets a field: `set(name, value)`, or `headers[name] = value`. -/
inductive HeaderCall where
  | set (name value : List Char)
  | assign (name value : List Char)

namespace HeaderCall

def name : HeaderCall → List Char
  | set name _ => name
  | assign name _ => name

def value : HeaderCall → List Char
  | set _ value => value
  | assign _ value => value

def apply (headers : HeadersContainer) : HeaderCall → HeadersContainer
  | set name value => headers.set name value
  | assign name value => ((headers.index name).assign value headers).2

/-- The headers after the calls. -/
def run (calls : List HeaderCall) : HeadersContainer := Run.run apply {} calls

/-! ## What it is for -/

/-- A map from names to values, in which a call replaces the value of its name. -/
def update (map : List Char → Option (List Char)) (call : HeaderCall) :
    List Char → Option (List Char) :=
  Function.update map (foldCase call.name) (some call.value)

/-- The value most recently set under each name. -/
def mostRecent (calls : List HeaderCall) (name : List Char) : Option (List Char) :=
  Run.run update (fun _ => none) calls (foldCase name)

/-- The headers are what the map of the calls says, and the fields that the serializer writes
are the entries of that map, each one once. -/
structure ActsAsMap (calls : List HeaderCall) : Prop where
  get : ∀ name, (run calls).get name = (mostRecent calls name).getD []
  has : ∀ name, (run calls).has name = (mostRecent calls name).isSome
  once : (run calls).written.Pairwise fun field other => field.isName other.name = false
  written : ∀ field ∈ (run calls).written, mostRecent calls field.name = some field.value

/-- No name is set twice. -/
def Fresh (calls : List HeaderCall) : Prop :=
  calls.Pairwise fun call other => iequals call.name other.name = false

instance (calls : List HeaderCall) : Decidable (Fresh calls) :=
  inferInstanceAs (Decidable (calls.Pairwise _))

/-! ## The fields and the map -/

/-- The field that a call appends. -/
def field (call : HeaderCall) : HeaderField := ⟨call.name, call.value⟩

theorem apply_fields (headers : HeadersContainer) (call : HeaderCall) :
    (apply headers call).fields = headers.fields ++ [call.field] := by
  cases call with
  | set name value => rfl
  | assign name value => rfl

theorem run_fields_from (headers : HeadersContainer) (calls : List HeaderCall) :
    (Run.run apply headers calls).fields = headers.fields ++ calls.map field := by
  induction calls generalizing headers with
  | nil => exact (List.append_nil _).symm
  | cons call calls ih =>
      rw [Run.run_cons, ih, apply_fields, List.append_assoc]
      rfl

theorem run_written (calls : List HeaderCall) : (run calls).written = calls.map field :=
  run_fields_from {} calls

/-- The call sets the name `key`, which has no letter case. -/
def isNamed (key : List Char) (call : HeaderCall) : Bool := decide (foldCase call.name = key)

theorem iter_run (calls : List HeaderCall) (name : List Char) :
    (run calls).iter name = (calls.find? (isNamed (foldCase name))).map field := by
  have hname : (fun call : HeaderCall => call.field.isName name) = isNamed (foldCase name) := by
    funext call
    exact iequals_eq_decide call.name name
  rw [HeadersContainer.iter, show (run calls).fields = calls.map field from run_written calls,
    List.find?_map]
  exact congrArg (fun p => Option.map field (List.find? p calls)) hname

theorem update_of_isNamed (h : isNamed key call = true)
    (map : List Char → Option (List Char)) : update map call key = some call.value := by
  rw [update, of_decide_eq_true h]
  exact Function.update_self _ _ _

theorem update_of_not_isNamed
    (h : isNamed key call = false) (map : List Char → Option (List Char)) :
    update map call key = map key :=
  Function.update_of_ne (Ne.symm (of_decide_eq_false h)) _ _

theorem run_update_of_forall
    (h : ∀ call ∈ calls, isNamed key call = false) (map : List Char → Option (List Char)) :
    Run.run update map calls key = map key := by
  induction calls generalizing map with
  | nil => rfl
  | cons call calls ih =>
      rw [Run.run_cons, ih (fun c hc => h c (List.mem_cons_of_mem _ hc))]
      exact update_of_not_isNamed (h call List.mem_cons_self) map

theorem isNamed_of_fresh {call other : HeaderCall}
    (h : iequals call.name other.name = false) (hcall : isNamed key call = true) :
    isNamed key other = false := by
  rw [iequals_eq_decide] at h
  refine decide_eq_false fun heq => of_decide_eq_false h ?_
  exact (of_decide_eq_true hcall).trans heq.symm

theorem run_update_of_fresh (h : Fresh calls)
    {map : List Char → Option (List Char)} (hmap : map key = none) :
    Run.run update map calls key = (calls.find? (isNamed key)).map value := by
  induction calls generalizing map with
  | nil => exact hmap
  | cons call calls ih =>
      obtain ⟨hcall, hcalls⟩ := List.pairwise_cons.mp h
      rw [Run.run_cons]
      cases hkey : isNamed key call with
      | true =>
          have hother : ∀ other ∈ calls, isNamed key other = false :=
            fun other hmem => isNamed_of_fresh (hcall other hmem) hkey
          rw [run_update_of_forall hother, update_of_isNamed hkey, List.find?_cons_of_pos hkey]
          rfl
      | false =>
          rw [List.find?_cons_of_neg (by rw [hkey]; exact Bool.false_ne_true)]
          exact ih hcalls ((update_of_not_isNamed hkey map).trans hmap)

theorem find?_isNamed_of_fresh (h : Fresh calls)
    (hmem : call ∈ calls) : calls.find? (isNamed (foldCase call.name)) = some call := by
  induction calls with
  | nil => exact absurd hmem List.not_mem_nil
  | cons first calls ih =>
      obtain ⟨hfirst, hcalls⟩ := List.pairwise_cons.mp h
      rcases List.mem_cons.mp hmem with rfl | hmem
      · exact List.find?_cons_of_pos (decide_eq_true rfl)
      · have hne := hfirst call hmem
        rw [iequals_eq_decide] at hne
        rw [List.find?_cons_of_neg (by rw [isNamed, hne]; exact Bool.false_ne_true)]
        exact ih hcalls hmem

/-- A container of headers is a map exactly as long as no name is set twice. -/
theorem actsAsMap_iff (calls : List HeaderCall) : ActsAsMap calls ↔ Fresh calls := by
  constructor
  · intro h
    have honce := h.once
    rw [run_written, List.pairwise_map] at honce
    exact honce
  · intro h
    have hrecent : ∀ name, mostRecent calls name =
        (calls.find? (isNamed (foldCase name))).map value :=
      fun name => run_update_of_fresh h rfl
    refine ⟨fun name => ?_, fun name => ?_, ?_, ?_⟩
    · rw [HeadersContainer.get, iter_run, hrecent]
      cases calls.find? (isNamed (foldCase name)) with
      | none => rfl
      | some call => rfl
    · have hiter := congrArg Option.isSome (iter_run calls name)
      rw [Option.isSome_map] at hiter
      rw [hrecent, Option.isSome_map]
      exact hiter
    · rw [run_written, List.pairwise_map]
      exact h
    · intro field hfield
      rw [run_written, List.mem_map] at hfield
      obtain ⟨call, hcall, rfl⟩ := hfield
      rw [hrecent]
      exact congrArg (Option.map value) (find?_isNamed_of_fresh h hcall)

/-- The second value of a name is lost. -/
theorem not_actsAsMap_twice : ¬ ∀ calls : List HeaderCall, ActsAsMap calls := by
  intro h
  have hget := (h [.set ['A'] ['1'], .set ['a'] ['2']]).get ['a']
  exact absurd hget (by decide)

end HeaderCall

end Webpp.Http

/-!
## Header lines

The serializer writes names and values as they are. What a client reads are the lines between
the ends of lines, so a value with an end of line in it is more than one line.
-/

namespace Webpp.Http

open Split

/-- The headers after each name has been set to its value. -/
def headersOf (fields : List (List Char × List Char)) : HeadersContainer :=
  fields.foldl (fun headers field => headers.set field.1 field.2) {}

/-- What a client reads: the parts between the ends of lines. -/
def splitCrlf (text : List Char) : List (List Char) := splitPair '\r' '\n' text

/-- The line of a name and a value. -/
def headerLine (field : List Char × List Char) : List Char := field.1 ++ [':', ' '] ++ field.2

/-- The text of the headers is split into one line for each field, in their order, and
nothing is left behind the last end of line. -/
def OneLineEach (fields : List (List Char × List Char)) : Prop :=
  splitCrlf (headersOf fields).stringTo = fields.map headerLine ++ [[]]

/-- No carriage return is followed by a line feed. -/
def NoCrlf (text : List Char) : Prop := Unsplit '\r' '\n' text

theorem fields_foldl_set (fields : List (List Char × List Char)) (headers : HeadersContainer) :
    (fields.foldl (fun headers field => headers.set field.1 field.2) headers).fields =
      headers.fields ++ fields.map fun field => ⟨field.1, field.2⟩ := by
  induction fields generalizing headers with
  | nil => exact (List.append_nil _).symm
  | cons field fields ih =>
      rw [List.foldl_cons, ih]
      exact List.append_assoc _ _ _

theorem stringTo_headersOf (fields : List (List Char × List Char)) :
    (headersOf fields).stringTo =
      (fields.map headerLine).flatMap fun line => line ++ ['\r', '\n'] := by
  have hfields := fields_foldl_set fields {}
  rw [HeadersContainer.stringTo, HeadersContainer.written, headersOf, hfields, List.nil_append,
    List.flatMap_map, List.flatMap_map]
  rfl

theorem noCrlf_headerLine (field : List Char × List Char) :
    NoCrlf (headerLine field) ↔ NoCrlf field.1 ∧ NoCrlf field.2 := by
  have hcolon : ':' ≠ '\r' ∧ ':' ≠ '\n' := by decide
  have hblank : ' ' ≠ '\r' ∧ ' ' ≠ '\n' := by decide
  have hvalue : NoCrlf ([' '] ++ field.2) ↔ NoCrlf field.2 := by
    have h := unsplit_append_cons hblank.1 hblank.2 [] field.2
    rw [List.nil_append] at h
    exact h.trans (and_iff_right unsplit_nil)
  rw [NoCrlf, headerLine, List.append_assoc, List.cons_append,
    unsplit_append_cons hcolon.1 hcolon.2]
  exact and_congr_right fun _ => hvalue

/-- Each field is one line exactly when no name and no value has an end of line in it. -/
theorem oneLineEach_iff (fields : List (List Char × List Char)) :
    OneLineEach fields ↔ ∀ field ∈ fields, NoCrlf field.1 ∧ NoCrlf field.2 := by
  have hcrlf : '\r' ≠ '\n' := by decide
  rw [OneLineEach, splitCrlf, stringTo_headersOf]
  constructor
  · intro h field hfield
    have hmem : headerLine field ∈ fields.map headerLine ++ [[]] :=
      List.mem_append_left _ (List.mem_map_of_mem hfield)
    rw [← h] at hmem
    exact (noCrlf_headerLine field).mp (unsplit_of_mem_splitPair hmem)
  · intro h
    refine splitPair_flatMap hcrlf fun line hline => ?_
    obtain ⟨field, hfield, rfl⟩ := List.mem_map.mp hline
    exact (noCrlf_headerLine field).mpr (h field hfield)

/-- A value that sets a cookie behind an end of line. -/
theorem not_oneLineEach_crlf :
    ¬ ∀ fields : List (List Char × List Char), OneLineEach fields := by
  intro h
  have hlines := h [(['a'], ['\r', '\n', 'b', ':', ' ', 'c'])]
  rw [OneLineEach] at hlines
  exact absurd hlines (by decide)

end Webpp.Http
