import Webpp.Ip.AddressText
import Mathlib.Data.List.TakeWhile

/-!
# `inet_pton6`

The parser of IPv6 addresses. The output is a buffer of sixteen bytes; `out` and
`colon_ptr` are indices into it. The loop collects a group of hexadecimal digits
in `val`, writes it at a colon, remembers the place of `::` in `colonPtr`, and
hands a dotted quad to `inet_pton4`. After the loop the bytes behind `::` are
moved to the end of the buffer.

`resume` is the loop with all that follows it. The lemmas below say what it does
from the start of a group (`atGroup`), where the bytes written so far are a
prefix of the buffer.
-/

namespace Webpp.Ip

open Webpp.Text

variable {special : Char} {token g : List Char}

/-- What a call of `inet_pton6` leaves: the text from `src` on, and the buffer. -/
structure Pton6 where
  status : InetPton6Status
  src : List Char
  bytes : List UInt8
  deriving DecidableEq

/-- The local variables of `inet_pton6`. `curChar` has no value before the loop
reads a character. -/
structure Pton6State where
  currentToken : List Char
  hexSeen : ℕ
  val : ℕ
  curChar : Option Char
  colonPtr : Option ℕ
  out : ℕ
  bytes : List UInt8

/-- The loop returns from the function, or ends with the text from `src` on. -/
inductive Pton6Exit where
  | returned (r : Pton6)
  | left (src : List Char) (q : Pton6State)

/-- Writes the two bytes of `val`. -/
def Pton6State.writeVal (q : Pton6State) : Pton6State :=
  { q with
    bytes := (q.bytes.set q.out (UInt8.ofNat (q.val >>> 8 &&& 0xFF))).set (q.out + 1)
      (UInt8.ofNat (q.val &&& 0xFF))
    out := q.out + 2 }

/-- What the loop makes of the result of `inet_pton4` on the last two groups. -/
def leaveQuad (q : Pton6State) (r : Pton4) : Pton6Exit :=
  match r.status with
  | .validSpecial =>
      .left r.src { q with
        curChar := r.src.head?, out := q.out + 4, hexSeen := 0, bytes := r.bytes }
  | .valid => .left r.src { q with out := q.out + 4, hexSeen := 0, bytes := r.bytes }
  | .badEnding => .returned ⟨.badEnding, r.src, r.bytes⟩
  | .tooLittleOctets => .returned ⟨.badEnding, r.src, r.bytes⟩
  | .invalidLeadingZero => .returned ⟨.badEnding, r.src, r.bytes⟩
  | .tooManyOctets => .returned ⟨.badEnding, r.src, r.bytes⟩
  | .invalidOctetRange => .returned ⟨.invalidOctetRange, r.src, r.bytes⟩
  | .invalidCharacter => .returned ⟨.invalidCharacter, r.src, r.bytes⟩
  | .invalidPrefix => .returned ⟨.invalidPrefix, r.src, r.bytes⟩

/-- The loop of `inet_pton6`. -/
def inetPton6Loop (special : Char) : List Char → Pton6State → Pton6Exit
  | [], q => .left [] q
  | cur :: src, q =>
      match hexDigitSafe cur with
      | some digit =>
          if q.hexSeen = 4 then .returned ⟨.invalidOctetRange, src, q.bytes⟩
          else if (q.val <<< 4 ||| digit) > 0xFFFF then
            .returned ⟨.invalidOctetRange, src, q.bytes⟩
          else inetPton6Loop special src { q with
            curChar := some cur, val := q.val <<< 4 ||| digit, hexSeen := q.hexSeen + 1 }
      | none =>
          if cur = ':' then
            if q.hexSeen = 0 then
              if q.colonPtr.isSome then .returned ⟨.invalidColonUsage, src, q.bytes⟩
              else inetPton6Loop special src { q with
                curChar := some cur, currentToken := src, colonPtr := some q.out }
            else if src.isEmpty then .returned ⟨.badEnding, src, q.bytes⟩
            else if q.out + 2 > ipv6ByteCount then
              .returned ⟨.invalidOctetRange, src, q.bytes⟩
            else inetPton6Loop special src { q.writeVal with
              curChar := some cur, currentToken := src, hexSeen := 0, val := 0 }
          else if cur = '.' ∧ q.out + ipv4ByteCount ≤ ipv6ByteCount ∧
              (q.out ≠ 0 ∨ q.colonPtr.isSome) then
            -- the terminator of the quad is the default one, whatever `special` is
            leaveQuad { q with curChar := some cur }
              (inetPton4 q.currentToken q.bytes q.out '/')
          else if cur = special then .left (cur :: src) { q with curChar := some cur }
          else .returned ⟨.invalidCharacter, cur :: src, q.bytes⟩

/-- `for (; out != colon_ptr;) *--right_ptr = *--out;` -/
def moveBack (colon : ℕ) : (out right : ℕ) → List UInt8 → ℕ × List UInt8
  | 0, right, bytes => (right, bytes)
  | out + 1, right, bytes =>
      if out + 1 = colon then (right, bytes)
      else moveBack colon out (right - 1) (bytes.set (right - 1) (bytes.getD out 0))

/-- `for (; colon_ptr != right_ptr; *colon_ptr++ = 0)`, with `count` bytes between
the two. -/
def fillZeros : (count colon : ℕ) → List UInt8 → List UInt8
  | 0, _, bytes => bytes
  | count + 1, colon, bytes => fillZeros count (colon + 1) (bytes.set colon 0)

/-- Replace `::` with zeros. -/
def expandGap (colon out : ℕ) (bytes : List UInt8) : List UInt8 :=
  let moved := moveBack colon out ipv6ByteCount bytes
  fillZeros (moved.1 - colon) colon moved.2

/-- The end of `inet_pton6`, with the last group written. -/
def concludePton6 (special : Char) (src : List Char) (q : Pton6State) : Pton6 :=
  let conclude (out : ℕ) (bytes : List UInt8) : Pton6 :=
    if out ≠ ipv6ByteCount then ⟨.badEnding, src, bytes⟩
    else if q.curChar = some special then ⟨.validSpecial, src, bytes⟩
    else ⟨.valid, src, bytes⟩
  match q.colonPtr with
  | some colon =>
      if q.out = ipv6ByteCount then ⟨.badEnding, src, q.bytes⟩
      else conclude ipv6ByteCount (expandGap colon q.out q.bytes)
  | none => conclude q.out q.bytes

/-- What follows the loop. -/
def finishPton6 (special : Char) : Pton6Exit → Pton6
  | .returned r => r
  | .left src q =>
      if q.hexSeen > 0 then
        if q.out + 2 > ipv6ByteCount then ⟨.invalidOctetRange, src, q.bytes⟩
        else concludePton6 special src q.writeVal
      else concludePton6 special src q

/-- The loop and what follows it. -/
def resume (special : Char) (src : List Char) (q : Pton6State) : Pton6 :=
  finishPton6 special (inetPton6Loop special src q)

/-- The state before the loop. -/
def startPton6 (src : List Char) (bytes : List UInt8) : Pton6State :=
  ⟨src, 0, 0, none, none, 0, bytes⟩

/-- `inet_pton6` on a buffer of sixteen bytes. -/
def inetPton6 (src : List Char) (bytes : List UInt8) (special : Char) : Pton6 :=
  match src with
  | [] => ⟨.badEnding, [], bytes⟩
  | ':' :: src =>
      match src with
      | ':' :: rest => resume special (':' :: rest) (startPton6 (':' :: rest) bytes)
      | src => ⟨.invalidColonUsage, src, bytes⟩
  | src => resume special src (startPton6 src bytes)

/-! ## Digits of a group -/

theorem resume_digit {c : Char} {d : ℕ} (hc : hexDigitSafe c = some d)
    (src : List Char) {q : Pton6State} (hseen : q.hexSeen < 4) (hval : q.val < 16 ^ q.hexSeen) :
    resume special (c :: src) q =
      resume special src { q with
        curChar := some c, val := q.val * 16 + d, hexSeen := q.hexSeen + 1 } := by
  have hd : d < 2 ^ 4 := hexDigitSafe_lt hc
  have hor : q.val <<< 4 ||| d = q.val * 16 + d := by
    rw [← Nat.shiftLeft_add_eq_or_of_lt hd, Nat.shiftLeft_eq]
  have hpow : 16 ^ q.hexSeen ≤ 16 ^ 3 := Nat.pow_le_pow_right (by decide) (by omega)
  rw [resume, inetPton6Loop, hc]
  simp only
  rw [hor, if_neg (by omega), if_neg (by omega)]
  rfl

theorem resume_fifth_digit {c : Char} (hc : isHexDigit c = true)
    (src : List Char) {q : Pton6State} (hseen : q.hexSeen = 4) :
    (resume special (c :: src) q).status = .invalidOctetRange := by
  obtain ⟨d, hd⟩ := exists_hexDigitSafe hc
  rw [resume, inetPton6Loop, hd]
  simp only
  rw [if_pos hseen]
  rfl

theorem hexValueFrom_lt {g : List Char} (hg : ∀ c ∈ g, isHexDigit c = true) {v n : ℕ}
    (hv : v < 16 ^ n) : hexValueFrom v g < 16 ^ (n + g.length) := by
  induction g generalizing v n with
  | nil => exact hv
  | cons c g ih =>
      obtain ⟨d, hd⟩ := exists_hexDigitSafe (hg c List.mem_cons_self)
      have hlt := hexDigitSafe_lt hd
      have hstep : v * 16 + d < 16 ^ (n + 1) := by
        rw [Nat.pow_succ]
        omega
      have h := ih (fun x hx => hg x (List.mem_cons_of_mem c hx)) hstep
      rw [show n + (c :: g).length = n + 1 + g.length by rw [List.length_cons]; omega]
      rw [hexValueFrom, List.foldl_cons, hd]
      exact h

/-- At most four digits are collected in `val`. -/
theorem resume_digits (hspecial : isHexDigit special = false)
    {g : List Char} (hg : ∀ c ∈ g, isHexDigit c = true) (src : List Char) {q : Pton6State}
    (hseen : q.hexSeen + g.length ≤ 4) (hval : q.val < 16 ^ q.hexSeen)
    (hcur : q.curChar ≠ some special) :
    ∃ cur, cur ≠ some special ∧
      resume special (g ++ src) q =
        resume special src { q with
          curChar := cur, val := hexValueFrom q.val g, hexSeen := q.hexSeen + g.length } := by
  induction g generalizing q with
  | nil => exact ⟨q.curChar, hcur, rfl⟩
  | cons c g ih =>
      have hc := hg c List.mem_cons_self
      obtain ⟨d, hd⟩ := exists_hexDigitSafe hc
      rw [List.length_cons] at hseen
      have hstep : q.val * 16 + d < 16 ^ (q.hexSeen + 1) := by
        have hlt := hexDigitSafe_lt hd
        rw [Nat.pow_succ]
        omega
      have hne : some c ≠ some special := by
        intro h
        rw [Option.some.inj h, hspecial] at hc
        exact absurd hc (by decide)
      obtain ⟨cur, hcur', h⟩ := @ih (fun x hx => hg x (List.mem_cons_of_mem c hx))
        { q with curChar := some c, val := q.val * 16 + d, hexSeen := q.hexSeen + 1 }
        (by simp only; omega) hstep hne
      refine ⟨cur, hcur', ?_⟩
      rw [List.cons_append, resume_digit hd _ (by omega) hval, h, List.length_cons,
        show q.hexSeen + 1 + g.length = q.hexSeen + (g.length + 1) by omega]
      rw [hexValueFrom, hexValueFrom, List.foldl_cons, hd]
      rfl

/-! ## The start of a group -/

/-- The start of a group, when the bytes `w` have been written. -/
def atGroup (src : List Char) (cur : Option Char) (w : List UInt8) (colon : Option ℕ)
    (post : List UInt8) : Pton6State :=
  ⟨src, 0, 0, cur, colon, w.length, w ++ post⟩

/-- The digits `g` of a group have been read. -/
def inGroup (token g : List Char) (cur : Option Char) (w : List UInt8) (colon : Option ℕ)
    (post : List UInt8) : Pton6State :=
  ⟨token, g.length, hexValueFrom 0 g, cur, colon, w.length, w ++ post⟩

theorem resume_group (hspecial : isHexDigit special = false)
    {g : List Char} (hg : ∀ c ∈ g, isHexDigit c = true) (hlen : g.length ≤ 4)
    (token src : List Char) {cur : Option Char} (hcur : cur ≠ some special)
    (w : List UInt8) (colon : Option ℕ) (post : List UInt8) :
    ∃ cur', cur' ≠ some special ∧
      resume special (g ++ src) (atGroup token cur w colon post) =
        resume special src (inGroup token g cur' w colon post) := by
  obtain ⟨cur', hcur', h⟩ := @resume_digits special hspecial g hg src
    (atGroup token cur w colon post) (by simpa [atGroup] using hlen) (by simp [atGroup]) hcur
  refine ⟨cur', hcur', h.trans ?_⟩
  simp only [atGroup, inGroup, Nat.zero_add]

theorem writeVal_inGroup (hg : IsGroup g) (cur : Option Char)
    {w : List UInt8} (colon : Option ℕ) {post : List UInt8} (hpost : 2 ≤ post.length) :
    (inGroup token g cur w colon post).writeVal =
      { inGroup token g cur w colon post with
        out := (w ++ groupBytes g).length, bytes := w ++ groupBytes g ++ post.drop 2 } := by
  match post, hpost with
  | x :: y :: post, _ =>
      have hlt : hexValueFrom 0 g < 16 ^ 4 := by
        have h := hexValueFrom_lt hg.hex (show 0 < 16 ^ 0 by decide)
        exact h.trans_le (Nat.pow_le_pow_right (by decide) (by have := hg.le_four; omega))
      have hhigh : hexValueFrom 0 g >>> 8 &&& 0xFF = hexValueFrom 0 g / 256 := by
        rw [show (0xFF : ℕ) = 2 ^ 8 - 1 by rfl, Nat.and_two_pow_sub_one_eq_mod,
          Nat.shiftRight_eq_div_pow]
        omega
      have hlow : hexValueFrom 0 g &&& 0xFF = hexValueFrom 0 g % 256 := by
        rw [show (0xFF : ℕ) = 2 ^ 8 - 1 by rfl, Nat.and_two_pow_sub_one_eq_mod]
      simp only [inGroup, Pton6State.writeVal, hhigh, hlow]
      rw [set_length_append, show w.length + 1 = (w ++ [UInt8.ofNat
        (hexValueFrom 0 g / 256)]).length by simp]
      rw [List.append_cons w, set_length_append]
      simp [groupBytes]

theorem resume_colon (hg : IsGroup g)
    (cur : Option Char) {w : List UInt8} (colon : Option ℕ) {post : List UInt8}
    (hpost : 2 ≤ post.length) (hbuf : w.length + post.length = 16) {src : List Char}
    (hsrc : src ≠ []) :
    resume special (':' :: src) (inGroup token g cur w colon post) =
      resume special src (atGroup src (some ':') (w ++ groupBytes g) colon (post.drop 2)) := by
  have hnone : hexDigitSafe ':' = none := by decide
  have hwrite := @writeVal_inGroup token g hg cur w colon post hpost
  have hpos : ¬ (inGroup token g cur w colon post).hexSeen = 0 := by
    have := hg.pos
    simp only [inGroup]
    omega
  rw [resume, inetPton6Loop, hnone]
  simp only
  rw [if_pos trivial, if_neg hpos, if_neg (by simpa using hsrc), if_neg ?_, hwrite]
  · rfl
  · simp only [inGroup, ipv6ByteCount]
    omega

/-- No text ends, and no byte is written past the buffer, at a colon after a
group. -/
theorem resume_colon_invalid (hg : IsGroup g)
    (cur : Option Char) {w : List UInt8} (colon : Option ℕ) {post : List UInt8}
    (hbuf : w.length + post.length = 16) {src : List Char} (h : src = [] ∨ post.length < 2) :
    (resume special (':' :: src) (inGroup token g cur w colon post)).status.isValid =
      false := by
  have hnone : hexDigitSafe ':' = none := by decide
  have hpos : ¬ (inGroup token g cur w colon post).hexSeen = 0 := by
    have := hg.pos
    simp only [inGroup]
    omega
  rw [resume, inetPton6Loop, hnone]
  simp only
  rw [if_pos trivial, if_neg hpos]
  by_cases hsrc : src = []
  · rw [if_pos (by simp [hsrc])]
    rfl
  · rw [if_neg (by simpa using hsrc), if_pos ?_]
    · rfl
    · have hlt := h.resolve_left hsrc
      simp only [inGroup, ipv6ByteCount]
      omega

/-- A colon at the start of a group is the second of `::`. -/
theorem resume_gap (token src : List Char) (cur : Option Char)
    (w : List UInt8) (post : List UInt8) :
    resume special (':' :: src) (atGroup token cur w none post) =
      resume special src (atGroup src (some ':') w (some w.length) post) := by
  have hnone : hexDigitSafe ':' = none := by decide
  rw [resume, inetPton6Loop, hnone]
  rfl

theorem resume_second_gap (token src : List Char) (cur : Option Char)
    (w : List UInt8) (p : ℕ) (post : List UInt8) :
    (resume special (':' :: src) (atGroup token cur w (some p) post)).status.isValid =
      false := by
  have hnone : hexDigitSafe ':' = none := by decide
  rw [resume, inetPton6Loop, hnone]
  rfl

/-- A character that is neither a digit nor a colon nor the special one ends the
parse, unless it is the first dot of a quad. -/
theorem resume_other {special c : Char} (hc : isHexDigit c = false) (hcolon : c ≠ ':')
    (hne : c ≠ special) (src : List Char) {q : Pton6State}
    (hdot : ¬ (c = '.' ∧ q.out + ipv4ByteCount ≤ ipv6ByteCount ∧
      (q.out ≠ 0 ∨ q.colonPtr.isSome))) :
    (resume special (c :: src) q).status.isValid = false := by
  rw [resume, inetPton6Loop, hexDigitSafe_eq_none hc]
  simp only
  rw [if_neg hcolon, if_neg hdot, if_neg hne]
  rfl

/-! ## The bytes behind `::` -/

theorem moveBack_append (l r mid done : List UInt8) :
    ∃ mid', mid'.length = mid.length ∧
      moveBack l.length (l ++ r).length (l ++ r ++ mid).length (l ++ r ++ mid ++ done) =
        ((l ++ mid').length, l ++ mid' ++ r ++ done) := by
  induction r using List.reverseRecOn generalizing mid done with
  | nil =>
      refine ⟨mid, rfl, ?_⟩
      rw [List.append_nil, List.append_nil]
      cases h : l.length with
      | zero => rfl
      | succ n => rw [moveBack, if_pos rfl]
  | append_singleton r v ih =>
      have hlen : (l ++ (r ++ [v])).length = (l ++ r).length + 1 := by simp; omega
      have hread : (l ++ (r ++ [v]) ++ mid ++ done).getD (l ++ r).length 0 = v := by
        simp
      rw [hlen, moveBack, if_neg (by simp; omega), hread]
      -- one byte moves up; the gap moves down
      cases mid using List.reverseRecOn with
      | nil =>
          obtain ⟨mid', hmid, h⟩ := ih [] (v :: done)
          refine ⟨mid', hmid, ?_⟩
          have hset : (l ++ (r ++ [v]) ++ [] ++ done).set
              ((l ++ (r ++ [v]) ++ []).length - 1) v = l ++ r ++ [] ++ v :: done := by
            simp
          rw [hset, show (l ++ (r ++ [v]) ++ ([] : List UInt8)).length - 1 =
            (l ++ r ++ ([] : List UInt8)).length by simp, h]
          simp
      | append_singleton mid y =>
          obtain ⟨mid', hmid, h⟩ := ih (v :: mid) (v :: done)
          refine ⟨mid', by simpa using hmid, ?_⟩
          have hset : (l ++ (r ++ [v]) ++ (mid ++ [y]) ++ done).set
              ((l ++ (r ++ [v]) ++ (mid ++ [y])).length - 1) v =
                l ++ r ++ v :: mid ++ v :: done := by
            have hs := set_length_append (l ++ r ++ v :: mid) done y v
            have hidx : (l ++ (r ++ [v]) ++ (mid ++ [y])).length - 1 =
                (l ++ r ++ v :: mid).length := by simp; omega
            rw [hidx, ← hs]
            simp
          rw [hset, show (l ++ (r ++ [v]) ++ (mid ++ [y])).length - 1 =
            (l ++ r ++ v :: mid).length by simp; omega, h]
          simp

theorem fillZeros_append (l mid post : List UInt8) :
    fillZeros mid.length l.length (l ++ mid ++ post) =
      l ++ List.replicate mid.length 0 ++ post := by
  induction mid generalizing l with
  | nil => simp [fillZeros]
  | cons x mid ih =>
      have hset : (l ++ x :: mid ++ post).set l.length 0 = (l ++ [0]) ++ mid ++ post := by
        simp
      have h := ih (l ++ [0])
      rw [List.length_append, List.length_singleton] at h
      rw [List.length_cons, fillZeros, hset, h, List.replicate_succ]
      simp

/-- The bytes written after `::` end up at the end of the buffer, with zeros before
them. -/
theorem expandGap_append (l r post : List UInt8) (h : (l ++ r ++ post).length = 16) :
    expandGap l.length (l ++ r).length (l ++ r ++ post) =
      l ++ List.replicate post.length 0 ++ r := by
  obtain ⟨mid, hmid, hmove⟩ := moveBack_append l r post []
  rw [List.append_nil, h] at hmove
  rw [expandGap, ipv6ByteCount, hmove]
  simp only
  rw [show (l ++ mid).length - l.length = mid.length by simp, List.append_assoc l mid,
    List.append_nil, ← List.append_assoc, fillZeros_append, hmid]

/-! ## The end of the text -/

/-- The address that the bytes `w` complete, `::` standing after the first `p` of
them. -/
def closeBytes (w : List UInt8) : Option ℕ → Option (List UInt8)
  | none => if w.length = 16 then some w else none
  | some p =>
      if w.length < 16 then
        some (w.take p ++ List.replicate (16 - w.length) 0 ++ w.drop p)
      else none

/-- The status of a text that is complete. -/
def endStatus (special : Char) (cur : Option Char) : InetPton6Status :=
  if cur = some special then .validSpecial else .valid

theorem conclude_of_closeBytes (src : List Char) {q : Pton6State}
    {w post bs : List UInt8} (hout : q.out = w.length) (hbytes : q.bytes = w ++ post)
    (hbuf : w.length + post.length = 16) (hcolon : ∀ p ∈ q.colonPtr, p ≤ w.length)
    (h : closeBytes w q.colonPtr = some bs) {st : InetPton6Status}
    (hst : endStatus special q.curChar = st) :
    concludePton6 special src q = ⟨st, src, bs⟩ := by
  rw [← hst]
  unfold concludePton6 endStatus
  cases hp : q.colonPtr with
  | none =>
      rw [hp, closeBytes] at h
      split_ifs at h with hlen
      have hnil : post = [] := List.length_eq_zero_iff.mp (by omega)
      rw [← Option.some.inj h, hbytes, hout, hlen, hnil, List.append_nil]
      simp only [ipv6ByteCount, ne_eq, not_true_eq_false, if_false]
      split <;> rfl
  | some p =>
      rw [hp, closeBytes] at h
      split_ifs at h with hlen
      have hle : p ≤ w.length := hcolon p (by rw [hp]; rfl)
      have hexp := expandGap_append (w.take p) (w.drop p) post
        (by rw [List.take_append_drop, List.length_append, hbuf])
      rw [List.take_append_drop, List.length_take_of_le hle] at hexp
      rw [show post.length = 16 - w.length by omega, Option.some.inj h] at hexp
      simp only [ipv6ByteCount, hout, hbytes, hexp]
      rw [if_neg (by omega)]
      simp only [ne_eq, not_true_eq_false, if_false]
      split <;> rfl

theorem conclude_of_closeBytes_none (src : List Char) {q : Pton6State}
    {w : List UInt8} (hout : q.out = w.length) (hle : w.length ≤ 16)
    (h : closeBytes w q.colonPtr = none) :
    (concludePton6 special src q).status.isValid = false := by
  unfold concludePton6
  cases hp : q.colonPtr with
  | none =>
      rw [hp, closeBytes] at h
      split_ifs at h with hlen
      simp only [ipv6ByteCount, hout, ne_eq, hlen, not_false_eq_true, if_true]
      rfl
  | some p =>
      rw [hp, closeBytes] at h
      split_ifs at h with hlen
      simp only [ipv6ByteCount, hout]
      rw [if_pos (by omega)]
      rfl

end Webpp.Ip
