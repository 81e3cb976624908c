import Webpp.Foundation.Loop
import Webpp.Http.BodyCopy
import Webpp.Http.CommonHttpResponse

/-!
# What a CGI program writes

The status line, the lines of the header fields, an empty line and the body. A reader cuts the
output at its ends of lines, and the first empty line is the end of the head.
-/

namespace Webpp.Http

open Loop Split

def statusCodeReasonPhrase : ℕ → String
  | 100 => "Continue"
  | 101 => "Switching Protocols"
  | 102 => "Processing"
  | 103 => "Early Hints"
  | 200 => "OK"
  | 201 => "Created"
  | 202 => "Accepted"
  | 203 => "Non-Authoritative Information"
  | 204 => "No Content"
  | 205 => "Reset Content"
  | 206 => "Partial Content"
  | 207 => "Multi-Status"
  | 208 => "Already Reported"
  | 226 => "IM Used"
  | 300 => "Multiple Choices"
  | 301 => "Moved Permanently"
  | 302 => "Found"
  | 303 => "See Other"
  | 304 => "Not Modified"
  | 305 => "Use Proxy"
  | 306 => "Switch Proxy"
  | 307 => "Temporary Redirect"
  | 308 => "Permanent Redirect"
  | 400 => "Bad Request"
  | 401 => "Unauthorized"
  | 402 => "Payment Required"
  | 403 => "Forbidden"
  | 404 => "Not Found"
  | 405 => "Method Not Allowed"
  | 406 => "Not Acceptable"
  | 407 => "Proxy Authentication Required"
  | 408 => "Request Timeout"
  | 409 => "Conflict"
  | 410 => "Gone"
  | 411 => "Length Required"
  | 412 => "Precondition Failed"
  | 413 => "Payload Too Large"
  | 414 => "URI Too Long"
  | 415 => "Unsupported Media Type"
  | 416 => "Range Not Satisfiable"
  | 417 => "Expectation Failed"
  | 418 => "I'm a teapot"
  | 421 => "Misdirected Request"
  | 422 => "Unprocessable Entity"
  | 423 => "Locked"
  | 424 => "Failed Dependency"
  | 425 => "Too Early"
  | 426 => "Upgrade Required"
  | 428 => "Precondition Required"
  | 429 => "Too Many Requests"
  | 431 => "Request Header Fields Too Large"
  | 451 => "Unavailable For Legal Reasons"
  | 500 => "Internal Server Error"
  | 501 => "Not Implemented"
  | 502 => "Bad Gateway"
  | 503 => "Service Unavailable"
  | 504 => "Gateway Timeout"
  | 505 => "HTTP Version Not Supported"
  | 506 => "Variant Also Negotiates"
  | 507 => "Insufficient Storage"
  | 508 => "Loop Detected"
  | 510 => "Not Extended"
  | 511 => "Network Authentication Required"
  | _ => "-"

/-- The line of the status, without its end. -/
def statusLine (code : UInt16) : List Char :=
  "Status: ".toList ++ Nat.toDigits 10 code.toNat ++ ' ' :: (statusCodeReasonPhrase code.toNat).toList

/-- A round of `write_cstream`; a write of a negative length is a fault. -/
def writeCstreamStep (size : ℕ+) (s : CStream × List Char) :
    Except Unit (Flow (CStream × List Char) (List Char)) :=
  let r := s.1.read (size : ℕ)
  if r.returned = 0 then .ok (.done s.2)
  else if r.returned < 0 then .error ()
  else .ok (.next (r.next, s.2 ++ r.bytes))

/-- `write_response_body`, where `size` is `default_buffer_size`. -/
def writeResponseBody (size : ℕ+) (out : List Char) : Body → Except Unit (List Char)
  | .nothing => .ok out
  | .textBased str => .ok (out ++ str)
  | .cstreamBased stream =>
      loop (writeCstreamStep size) () (stream.bytes.length + 1) (stream, out)

/-- What `operator()` of `cgi` writes for the response of the application. -/
def cgiOutput (libToChars : Bool) (size : ℕ+) (code : UInt16) (res : CommonHttpResponse) :
    Except Unit (List Char) :=
  let res := res.calculateDefaultHeaders libToChars
  writeResponseBody size (statusLine code ++ ['\r', '\n'] ++ res.headers.stringTo ++ ['\r', '\n'])
    res.body

/-! ## What a reader gets -/

/-- The lines before the first empty one, and what is behind that. -/
def readMessage (text : List Char) : List (List Char) × List Char :=
  let parts := splitCrlf text
  (parts.takeWhile (· ≠ []), ['\r', '\n'].intercalate (parts.dropWhile (· ≠ [])).tail)

def HeaderField.line (field : HeaderField) : List Char := headerLine (field.name, field.value)

/-- No end of line is in the name or in the value. -/
def HeaderField.OneLine (field : HeaderField) : Prop := NoCrlf field.name ∧ NoCrlf field.value

theorem readMessage_lines {lines : List (List Char)} (h : ∀ line ∈ lines, NoCrlf line)
    (hne : ∀ line ∈ lines, line ≠ []) (body : List Char) :
    readMessage ((lines.flatMap fun line => line ++ ['\r', '\n']) ++ ['\r', '\n'] ++ body) =
      (lines, body) := by
  have hcrlf : '\r' ≠ '\n' := by decide
  have hparts : splitCrlf ((lines.flatMap fun line => line ++ ['\r', '\n']) ++ ['\r', '\n'] ++
      body) = lines ++ [] :: splitCrlf body := by
    rw [splitCrlf, List.append_assoc, splitPair_flatMap_append hcrlf h]
    rfl
  have hhead : ∀ line ∈ lines, decide (line ≠ []) = true := fun line hline =>
    decide_eq_true (hne line hline)
  rw [readMessage, hparts, List.takeWhile_append_of_pos hhead, List.dropWhile_append_of_pos hhead]
  simp [splitCrlf, intercalate_splitPair]

/-! ## The body -/

theorem loop_writeCstreamStep (size : ℕ+) {stream : CStream} (h : stream.InBounds)
    (out : List Char) {n : ℕ} (hn : stream.unread.length < n) :
    loop (writeCstreamStep size) () n (stream, out) = .ok (out ++ stream.unread) := by
  induction n generalizing stream out with
  | zero => exact absurd hn (Nat.not_lt_zero _)
  | succ n ih =>
      have hread := CStream.read_of_index_le h size
      have hskip := stream.unread_skip size
      rcases Nat.eq_zero_or_pos stream.unread.length with hzero | hpos
      · have hdone : writeCstreamStep size (stream, out) = .ok (.done out) := by
          rw [writeCstreamStep, hread, hzero, Nat.min_zero]
          rfl
        rw [loop_of_done hdone, List.length_eq_zero_iff.mp hzero, List.append_nil]
      · have hmin : 0 < min (size : ℕ) stream.unread.length := Nat.lt_min.mpr ⟨size.pos, hpos⟩
        generalize hnext : { stream with
          index := stream.index + min (size : ℕ) stream.unread.length } = next at hread hskip
        have hmore : writeCstreamStep size (stream, out) =
            .ok (.next (next, out ++ stream.unread.take size)) := by
          rw [writeCstreamStep, hread]
          simp only [if_neg (Int.natCast_ne_zero.mpr (Nat.ne_of_gt hmin)),
            if_neg (Int.not_lt.mpr (Int.natCast_nonneg _))]
        have hbounds : next.InBounds := by
          have hlength : stream.unread.length = stream.bytes.length - stream.index :=
            List.length_drop
          rw [CStream.InBounds, ← hnext]
          change stream.index + min (size : ℕ) stream.unread.length ≤ stream.bytes.length
          omega
        have hless := congrArg List.length hskip
        rw [List.length_append, List.length_take] at hless
        rw [loop_of_next hmore, ih hbounds _ (by omega), List.append_assoc, hskip]

theorem writeResponseBody_eq (size : ℕ+) (out : List Char) {body : Body} (h : body.Valid) :
    writeResponseBody size out body = .ok (out ++ body.unread) := by
  cases body with
  | nothing => exact congrArg Except.ok (List.append_nil out).symm
  | textBased str => rfl
  | cstreamBased stream =>
      refine loop_writeCstreamStep size h.1 out (Nat.lt_succ_of_le ?_)
      rw [CStream.unread, List.length_drop]
      exact Nat.sub_le _ _

/-! ## The head -/

theorem not_mem_toDigits {c : Char} (hc : c.isDigit = false) (n : ℕ) : c ∉ Nat.toDigits 10 n := by
  intro hmem
  have hdigit := Nat.isDigit_of_mem_toDigits (by decide) (by decide) hmem
  exact absurd (hdigit.symm.trans hc) (by decide)

theorem not_mem_reasonPhrase (code : ℕ) : '\r' ∉ (statusCodeReasonPhrase code).toList := by
  rw [statusCodeReasonPhrase.eq_def]
  split <;> decide

theorem noCrlf_statusLine (code : UInt16) : NoCrlf (statusLine code) := by
  refine unsplit_of_not_mem fun hmem => ?_
  rcases List.mem_append.mp hmem with hmem | hmem
  · rcases List.mem_append.mp hmem with hmem | hmem
    · exact absurd hmem (by decide)
    · exact not_mem_toDigits rfl _ hmem
  · rcases List.mem_cons.mp hmem with heq | hmem
    · exact absurd heq (by decide)
    · exact not_mem_reasonPhrase _ hmem

theorem not_mem_sizeText (libToChars : Bool) (n : ℕ) : '\r' ∉ Text.sizeText libToChars n := by
  have hmantissa : ∀ digits, '\r' ∉ Text.mantissaText digits := by
    intro digits hmem
    rw [Text.mantissaText] at hmem
    have hdigits : '\r' ∉ ((Nat.toDigits 10 digits).reverse.dropWhile (· = '0')).reverse :=
      fun hmem => not_mem_toDigits rfl digits (List.mem_reverse.mp
        ((List.dropWhile_suffix _).subset (List.mem_reverse.mp hmem)))
    split at hmem
    · exact absurd hmem (by decide)
    · simp_all
    · simp_all
  have hexponent : ∀ n, '\r' ∉ Text.exponentText n := by
    intro n
    rw [Text.exponentText]
    split_ifs <;> simp [not_mem_toDigits]
  have hscientific : '\r' ∉ Text.scientific (Text.toDouble n) := by
    simp [Text.scientific, hmantissa, hexponent]
  rw [Text.sizeText, Text.toChars]
  split_ifs
  · exact hscientific
  · exact not_mem_toDigits rfl _
  · exact not_mem_toDigits rfl _

theorem oneLine_set {name value : List Char} (headers : HeadersContainer)
    (h : HeaderField.OneLine ⟨name, value⟩) :
    (∀ field ∈ (headers.set name value).fields, field.OneLine) ↔
      ∀ field ∈ headers.fields, field.OneLine := by
  rw [HeadersContainer.set, HeadersContainer.emplace, List.forall_mem_append,
    List.forall_mem_singleton]
  exact and_iff_left h

/-- The defaults have no ends of lines in them. -/
theorem oneLine_calculateDefaultHeaders (libToChars : Bool) (res : CommonHttpResponse) :
    (∀ field ∈ (res.calculateDefaultHeaders libToChars).headers.fields, field.OneLine) ↔
      ∀ field ∈ res.headers.fields, field.OneLine := by
  have htype : HeaderField.OneLine ⟨contentType, "text/html; charset=utf-8".toList⟩ :=
    ⟨unsplit_of_not_mem (by decide), unsplit_of_not_mem (by decide)⟩
  have hname : '\r' ∉ contentLength := by decide
  have hlength : HeaderField.OneLine ⟨contentLength, Text.sizeText libToChars res.body.size⟩ :=
    ⟨unsplit_of_not_mem hname, unsplit_of_not_mem (not_mem_sizeText _ _)⟩
  rw [CommonHttpResponse.calculateDefaultHeaders]
  cases res.headers.has "content-type".toList with
  | true =>
      cases res.headers.has "content-length".toList with
      | true => rfl
      | false => exact oneLine_set _ hlength
  | false =>
      cases res.headers.has "content-length".toList with
      | true => exact oneLine_set _ htype
      | false => exact (oneLine_set _ hlength).trans (oneLine_set _ htype)

/-- The lines of the head, the one of the status first. -/
def headLines (libToChars : Bool) (code : UInt16) (res : CommonHttpResponse) : List (List Char) :=
  statusLine code ::
    (res.calculateDefaultHeaders libToChars).headers.fields.map HeaderField.line

theorem cgiOutput_eq (libToChars : Bool) (size : ℕ+) (code : UInt16) {res : CommonHttpResponse}
    (h : res.body.Valid) : cgiOutput libToChars size code res =
      .ok (((headLines libToChars code res).flatMap fun line => line ++ ['\r', '\n']) ++
        ['\r', '\n'] ++ res.body.unread) := by
  have hbody : (res.calculateDefaultHeaders libToChars).body = res.body := rfl
  rw [cgiOutput, hbody, writeResponseBody_eq size _ h, headLines, List.flatMap_cons,
    List.flatMap_map]
  rfl

end Webpp.Http
