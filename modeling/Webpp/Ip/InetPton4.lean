import Webpp.Text.Digits
import Webpp.Ip.Status
import Mathlib.Data.List.TakeDrop

/-!
# Dotted-decimal addresses

`inetPton4` reads an IPv4 address into four bytes of a buffer, and `inetNtop4`
writes one. The buffer is the list of bytes the pointer points into, and the
pointer is an index into it; `inet_pton6` passes a pointer into the middle of its
own buffer.

The parser accepts exactly the texts the printer writes. The proof keeps, along
the loop, that the text read so far is what the printer writes for the bytes
stored so far (`printed`).
-/

namespace Webpp.Ip

open Webpp.Text

variable {c : Char}

/-- What a call of `inet_pton4` leaves: the text from `src` on, and the buffer. -/
structure Pton4 where
  status : InetPton4Status
  src : List Char
  bytes : List UInt8
  deriving DecidableEq

/-- The loop of `inet_pton4`. -/
def inetPton4Loop (special : Char) :
    List Char → (sawDigit : Bool) → (octets : ℕ) → List UInt8 → (out : ℕ) → Pton4
  | [], _, octets, bytes, _ =>
      if octets ≠ 4 then ⟨.tooLittleOctets, [], bytes⟩ else ⟨.valid, [], bytes⟩
  | cur :: src, sawDigit, octets, bytes, out =>
      if isDigit cur then
        let newI := (bytes.getD out 0).toNat * 10 + digitValue cur
        if sawDigit && bytes.getD out 0 == 0 then ⟨.invalidLeadingZero, src, bytes⟩
        else if newI > 255 then ⟨.invalidOctetRange, src, bytes⟩
        else
          let bytes := bytes.set out (UInt8.ofNat newI)
          if !sawDigit then
            if octets + 1 > 4 then ⟨.tooManyOctets, src, bytes⟩
            else inetPton4Loop special src true (octets + 1) bytes out
          else inetPton4Loop special src sawDigit octets bytes out
      else if cur = '.' ∧ sawDigit then
        if octets = 4 then ⟨.badEnding, src, bytes⟩
        else inetPton4Loop special src false octets (bytes.set (out + 1) 0) (out + 1)
      else if octets = 4 ∧ cur = special then ⟨.validSpecial, cur :: src, bytes⟩
      else ⟨.invalidCharacter, cur :: src, bytes⟩

/-- `inet_pton4` on a buffer, writing from the index `out` on. -/
def inetPton4 (src : List Char) (bytes : List UInt8) (out : ℕ) (special : Char) : Pton4 :=
  inetPton4Loop special src false 0 (bytes.set out 0) out

/-- `WEBPP_PUT_CHAR`. -/
def putOctet (o : UInt8) : List Char :=
  if o.toNat < 10 then [digitChar o.toNat]
  else if o.toNat < 100 then [digitChar (o.toNat / 10), digitChar (o.toNat % 10)]
  else [digitChar (o.toNat / 100), digitChar (o.toNat % 100 / 10), digitChar (o.toNat % 10)]

/-- The characters `inet_ntop4` writes before the NUL. -/
def inetNtop4 (src : List UInt8) : List Char :=
  putOctet (src.getD 0 0) ++ '.' :: (putOctet (src.getD 1 0) ++
    '.' :: (putOctet (src.getD 2 0) ++ '.' :: putOctet (src.getD 3 0)))

/-! ## Printed octets -/

theorem putOctet_ofNat {n : ℕ} (h : n < 256) :
    putOctet (UInt8.ofNat n) =
      if n < 10 then [digitChar n]
      else if n < 100 then [digitChar (n / 10), digitChar (n % 10)]
      else [digitChar (n / 100), digitChar (n % 100 / 10), digitChar (n % 10)] := by
  have hn : (UInt8.ofNat n).toNat = n := by
    rw [UInt8.toNat_ofNat']
    exact Nat.mod_eq_of_lt h
  rw [putOctet, hn]

theorem length_putOctet (o : UInt8) : 1 ≤ (putOctet o).length ∧ (putOctet o).length ≤ 3 := by
  unfold putOctet
  split
  · simp
  · split <;> simp

theorem isDigit_of_mem_putOctet {o : UInt8} (h : c ∈ putOctet o) :
    isDigit c = true := by
  have ho : o.toNat < 256 := o.toNat_lt
  have hall : ∀ d, d < 10 → c = digitChar d → isDigit c = true := by
    rintro d hd rfl
    exact isDigit_digitChar hd
  rw [putOctet] at h
  split_ifs at h with hlt hlt'
  · exact hall _ (by omega) (by simpa using h)
  · rcases List.mem_pair.mp h with h | h
    · exact hall _ (by omega) h
    · exact hall _ (by omega) h
  · simp only [List.mem_cons, List.not_mem_nil, or_false] at h
    rcases h with h | h | h
    · exact hall _ (by omega) h
    · exact hall _ (by omega) h
    · exact hall _ (by omega) h

theorem putOctet_ne_nil (o : UInt8) : putOctet o ≠ [] := by
  intro h
  have hlen := (length_putOctet o).1
  simp [h] at hlen

theorem putOctet_digit (h : isDigit c = true) :
    putOctet (UInt8.ofNat (digitValue c)) = [c] := by
  have hlt := digitValue_lt h
  rw [putOctet_ofNat (by omega), if_pos hlt, digitChar_digitValue h]

/-- A further digit is printed after the ones before it, unless these are a single
zero. -/
theorem putOctet_append_digit {v : UInt8} (h : isDigit c = true) (hv : v ≠ 0)
    (hle : v.toNat * 10 + digitValue c ≤ 255) :
    putOctet (UInt8.ofNat (v.toNat * 10 + digitValue c)) = putOctet v ++ [c] := by
  have hlt := digitValue_lt h
  have hv0 : v.toNat ≠ 0 := by
    intro h0
    exact hv (UInt8.toNat_inj.mp h0)
  have hvv : v = UInt8.ofNat v.toNat := UInt8.ofNat_toNat.symm
  rw [putOctet_ofNat (by omega), hvv, putOctet_ofNat v.toNat_lt, ← hvv]
  by_cases hlt10 : v.toNat < 10
  · rw [if_neg (by omega), if_pos (by omega), if_pos hlt10,
      show (v.toNat * 10 + digitValue c) / 10 = v.toNat by omega,
      show (v.toNat * 10 + digitValue c) % 10 = digitValue c by omega, digitChar_digitValue h]
    rfl
  · rw [if_neg (by omega), if_neg (by omega), if_neg hlt10, if_pos (by omega),
      show (v.toNat * 10 + digitValue c) / 100 = v.toNat / 10 by omega,
      show (v.toNat * 10 + digitValue c) % 100 / 10 = v.toNat % 10 by omega,
      show (v.toNat * 10 + digitValue c) % 10 = digitValue c by omega, digitChar_digitValue h]
    rfl

/-! ## The loop on its part of the buffer -/

/-- The loop when the octets `done` are stored after `base`, and `v` is the octet
that is being read. -/
def scan (special : Char) (base done : List UInt8) (v : UInt8) (post : List UInt8)
    (saw : Bool) (src : List Char) : Pton4 :=
  inetPton4Loop special src saw (done.length + saw.toNat) (base ++ done ++ v :: post)
    (base ++ done).length

theorem getD_length_append (xs ys : List UInt8) (v : UInt8) :
    (xs ++ v :: ys).getD xs.length 0 = v := by
  rw [List.getD_eq_getElem?_getD, List.getElem?_append_right (Nat.le_refl _), Nat.sub_self]
  rfl

theorem set_length_append (xs ys : List UInt8) (v w : UInt8) :
    (xs ++ v :: ys).set xs.length w = xs ++ w :: ys := by
  rw [List.set_append_right _ _ (Nat.le_refl _), Nat.sub_self]
  rfl

theorem inetPton4_eq_scan (special : Char) (src : List Char) (base : List UInt8) (v : UInt8)
    (post : List UInt8) :
    inetPton4 src (base ++ v :: post) base.length special =
      scan special base [] 0 post false src := by
  rw [inetPton4, set_length_append, scan, List.append_nil]
  rfl

theorem scan_nil (special : Char) (base done : List UInt8) (v : UInt8) (post : List UInt8)
    (saw : Bool) :
    scan special base done v post saw [] =
      if done.length + saw.toNat ≠ 4 then
        ⟨.tooLittleOctets, [], base ++ done ++ v :: post⟩
      else ⟨.valid, [], base ++ done ++ v :: post⟩ := rfl

theorem scan_digit (special : Char) (base done : List UInt8) (v : UInt8) (post : List UInt8)
    (saw : Bool) (src : List Char) (hc : isDigit c = true) (hdone : done.length ≤ 3) :
    scan special base done v post saw (c :: src) =
      if saw && v == 0 then
        ⟨.invalidLeadingZero, src, base ++ done ++ v :: post⟩
      else if v.toNat * 10 + digitValue c > 255 then
        ⟨.invalidOctetRange, src, base ++ done ++ v :: post⟩
      else
        scan special base done (UInt8.ofNat (v.toNat * 10 + digitValue c)) post true src := by
  rw [scan, inetPton4Loop, if_pos hc, getD_length_append]
  simp only
  split
  · rfl
  · split
    · rfl
    · rw [set_length_append]
      cases saw with
      | true => rfl
      | false =>
          rw [if_pos (by rfl), if_neg (by simp only [Bool.toNat_false]; omega)]
          rfl

theorem scan_dot (special : Char) (base done : List UInt8) (v x : UInt8) (post : List UInt8)
    (src : List Char) (hdone : done.length < 3) :
    scan special base done v (x :: post) true ('.' :: src) =
      scan special base (done ++ [v]) 0 post false src := by
  have hdot : ¬ isDigit '.' = true := by decide
  have hset : (base ++ done ++ v :: x :: post).set ((base ++ done).length + 1) 0 =
      base ++ (done ++ [v]) ++ 0 :: post := by
    simp [Nat.add_assoc]
  rw [scan, inetPton4Loop, if_neg hdot, if_pos ⟨rfl, rfl⟩,
    if_neg (by simp only [Bool.toNat_true]; omega), hset, scan]
  simp [Nat.add_assoc]

theorem scan_dot_full (special : Char) (base done : List UInt8) (v : UInt8)
    (post : List UInt8) (src : List Char) (hdone : done.length = 3) :
    scan special base done v post true ('.' :: src) =
      ⟨.badEnding, src, base ++ done ++ v :: post⟩ := by
  have hdot : ¬ isDigit '.' = true := by decide
  rw [scan, inetPton4Loop, if_neg hdot, if_pos ⟨rfl, rfl⟩, if_pos (by simp [hdone])]

theorem scan_other (special : Char) (base done : List UInt8) (v : UInt8) (post : List UInt8)
    (saw : Bool) (src : List Char) (hc : isDigit c = false) (hdot : ¬ (c = '.' ∧ saw = true)) :
    scan special base done v post saw (c :: src) =
      if done.length + saw.toNat = 4 ∧ c = special then
        ⟨.validSpecial, c :: src, base ++ done ++ v :: post⟩
      else ⟨.invalidCharacter, c :: src, base ++ done ++ v :: post⟩ := by
  rw [scan, inetPton4Loop, if_neg (by simp [hc]), if_neg hdot]

/-! ## What the printer writes is read back -/

theorem scan_putOctet (special : Char) (base done : List UInt8) (v : UInt8)
    (post : List UInt8) (src : List Char) (hdone : done.length ≤ 3) :
    scan special base done 0 post false (putOctet v ++ src) =
      scan special base done v post true src := by
  have hv := v.toNat_lt
  have hback : v = UInt8.ofNat v.toNat := UInt8.ofNat_toNat.symm
  -- one step reads the digit `d` after the octet `w`
  have hstep : ∀ (w : ℕ) (saw : Bool) (d : ℕ) (rest : List Char), d < 10 → w < 26 →
      w * 10 + d ≤ 255 → (saw = true → w ≠ 0) →
      scan special base done (UInt8.ofNat w) post saw (digitChar d :: rest) =
        scan special base done (UInt8.ofNat (w * 10 + d)) post true rest := by
    intro w saw d rest hd hw hle hsaw
    have hw' : (UInt8.ofNat w).toNat = w := by
      rw [UInt8.toNat_ofNat']
      exact Nat.mod_eq_of_lt (by omega)
    rw [scan_digit special base done _ post saw rest (isDigit_digitChar hd) hdone,
      digitValue_digitChar hd, hw', if_neg ?_, if_neg (by omega)]
    rw [Bool.and_eq_true, beq_iff_eq, ← UInt8.toNat_inj, hw']
    exact fun h => hsaw h.1 h.2
  rw [putOctet]
  split_ifs with h10 h100
  · have h1 := hstep 0 false v.toNat src h10 (by omega) (by omega) (by simp)
    rw [Nat.zero_mul, Nat.zero_add, ← hback] at h1
    exact h1
  · have h1 := hstep 0 false (v.toNat / 10) (digitChar (v.toNat % 10) :: src) (by omega)
      (by omega) (by omega) (by simp)
    have h2 := hstep (v.toNat / 10) true (v.toNat % 10) src (by omega) (by omega) (by omega)
      (by omega)
    rw [Nat.zero_mul, Nat.zero_add] at h1
    rw [show v.toNat / 10 * 10 + v.toNat % 10 = v.toNat by omega, ← hback] at h2
    exact h1.trans h2
  · have h1 := hstep 0 false (v.toNat / 100)
      (digitChar (v.toNat % 100 / 10) :: digitChar (v.toNat % 10) :: src) (by omega)
      (by omega) (by omega) (by simp)
    have h2 := hstep (v.toNat / 100) true (v.toNat % 100 / 10)
      (digitChar (v.toNat % 10) :: src) (by omega) (by omega) (by omega) (by omega)
    have h3 := hstep (v.toNat / 10) true (v.toNat % 10) src (by omega) (by omega) (by omega)
      (by omega)
    rw [Nat.zero_mul, Nat.zero_add] at h1
    rw [show v.toNat / 100 * 10 + v.toNat % 100 / 10 = v.toNat / 10 by omega] at h2
    rw [show v.toNat / 10 * 10 + v.toNat % 10 = v.toNat by omega, ← hback] at h3
    exact h1.trans (h2.trans h3)

theorem exists_four {q : List UInt8} (h : q.length = 4) : ∃ a b c d, q = [a, b, c, d] := by
  match q, h with
  | [a, b, c, d], _ => exact ⟨a, b, c, d, rfl⟩

theorem scan_inetNtop4 (special : Char) (base : List UInt8) {q : List UInt8}
    (hq : q.length = 4) (x y z : UInt8) (post : List UInt8) (src : List Char) :
    ∃ done v, q = done ++ [v] ∧ done.length = 3 ∧
      scan special base [] 0 (x :: y :: z :: post) false (inetNtop4 q ++ src) =
        scan special base done v post true src := by
  obtain ⟨a, b, c, d, rfl⟩ := exists_four hq
  refine ⟨[a, b, c], d, rfl, rfl, ?_⟩
  have htext : inetNtop4 [a, b, c, d] ++ src = putOctet a ++ ('.' :: (putOctet b ++
      ('.' :: (putOctet c ++ ('.' :: (putOctet d ++ src)))))) := by
    simp [inetNtop4]
  rw [htext, scan_putOctet _ _ _ _ _ _ (by simp), scan_dot _ _ _ _ _ _ _ (by simp),
    scan_putOctet _ _ _ _ _ _ (by simp), scan_dot _ _ _ _ _ _ _ (by simp),
    scan_putOctet _ _ _ _ _ _ (by simp), scan_dot _ _ _ _ _ _ _ (by simp),
    scan_putOctet _ _ _ _ _ _ (by simp)]
  rfl

/-- `inet_pton4` reads what `inet_ntop4` writes, in a buffer with room for it. -/
theorem inetPton4_inetNtop4 (special : Char) (base : List UInt8) {q old : List UInt8}
    (hq : q.length = 4) (hold : old.length = 4) (post : List UInt8) :
    inetPton4 (inetNtop4 q) (base ++ old ++ post) base.length special =
      ⟨.valid, [], base ++ q ++ post⟩ := by
  obtain ⟨w, x, y, z, rfl⟩ := exists_four hold
  obtain ⟨done, v, rfl, hdone, hscan⟩ := scan_inetNtop4 special base hq x y z post []
  rw [List.append_nil] at hscan
  rw [List.append_assoc, List.cons_append, inetPton4_eq_scan]
  refine hscan.trans ?_
  rw [scan_nil, if_neg (by simp [hdone])]
  simp

theorem inetPton4_inetNtop4_append (special : Char) (base : List UInt8) {q old : List UInt8}
    (hq : q.length = 4) (hold : old.length = 4) (post : List UInt8)
    (hc : isDigit c = false) (hdot : c ≠ '.') (src : List Char) :
    inetPton4 (inetNtop4 q ++ c :: src) (base ++ old ++ post) base.length special =
      ⟨if c = special then .validSpecial else .invalidCharacter, c :: src,
        base ++ q ++ post⟩ := by
  obtain ⟨w, x, y, z, rfl⟩ := exists_four hold
  obtain ⟨done, v, rfl, hdone, hscan⟩ := scan_inetNtop4 special base hq x y z post (c :: src)
  rw [List.append_assoc, List.cons_append, inetPton4_eq_scan]
  refine hscan.trans ?_
  rw [scan_other _ _ _ _ _ _ _ hc (fun h => hdot h.1)]
  by_cases hsp : c = special
  · rw [if_pos ⟨by simp [hdone], hsp⟩, if_pos hsp]
    simp
  · rw [if_neg (fun h => hsp h.2), if_neg hsp]
    simp

/-! ## Nothing else is read -/

/-- The text that was read when `done` is stored and `v` is being read. -/
def printed (done : List UInt8) (v : UInt8) (saw : Bool) : List Char :=
  (done.flatMap fun o => putOctet o ++ ['.']) ++ if saw then putOctet v else []

theorem printed_three {done : List UInt8} (h : done.length = 3) (v : UInt8) :
    printed done v true = inetNtop4 (done ++ [v]) := by
  match done, h with
  | [a, b, c], _ => simp [printed, inetNtop4]

/-- How a parse of the four octets `q` ends. -/
inductive Ends4 (special : Char) (bytes : List UInt8) : List Char → Pton4 → Prop where
  | finish : Ends4 special bytes [] ⟨.valid, [], bytes⟩
  | special (src : List Char) :
      Ends4 special bytes (special :: src) ⟨.validSpecial, special :: src, bytes⟩

theorem scan_valid (special : Char) (base : List UInt8) (src : List Char) (done : List UInt8)
    (v : UInt8) (post : List UInt8) (saw : Bool) (hdone : done.length ≤ 3)
    (hpost : 3 ≤ done.length + post.length) (hv : saw = false → v = 0)
    (hvalid : (scan special base done v post saw src).status.isValid = true) :
    ∃ q rest, q.length = 4 ∧ printed done v saw ++ src = inetNtop4 q ++ rest ∧
      Ends4 special (base ++ q ++ post.drop (3 - done.length)) rest
        (scan special base done v post saw src) := by
  induction src generalizing done v post saw with
  | nil =>
      rw [scan_nil] at hvalid ⊢
      by_cases hfour : done.length + saw.toNat = 4
      · have hsaw : saw = true := by
          cases saw with
          | true => rfl
          | false => rw [Bool.toNat_false] at hfour; omega
        have hthree : done.length = 3 := by
          rw [hsaw, Bool.toNat_true] at hfour
          omega
        refine ⟨done ++ [v], [], by simp [hthree], ?_, ?_⟩
        · rw [hsaw, printed_three hthree]
        · rw [if_neg (by simpa using hfour), hthree]
          simpa using Ends4.finish
      · rw [if_pos hfour] at hvalid
        exact absurd hvalid (by simp [InetPton4Status.isValid])
  | cons c src ih =>
      by_cases hc : isDigit c = true
      · rw [scan_digit special base done v post saw src hc hdone] at hvalid ⊢
        split_ifs at hvalid ⊢ with hzero hrange
        · exact absurd hvalid (by simp [InetPton4Status.isValid])
        · exact absurd hvalid (by simp [InetPton4Status.isValid])
        · obtain ⟨q, rest, hq, htext, hend⟩ := ih done _ post true hdone hpost (by simp) hvalid
          refine ⟨q, rest, hq, ?_, hend⟩
          rw [← htext, printed, printed, List.append_assoc, List.append_assoc]
          congr 1
          cases saw with
          | false =>
              rw [hv rfl]
              simp [putOctet_digit hc]
          | true =>
              have hv0 : v ≠ 0 := by simpa using hzero
              rw [if_pos rfl, if_pos rfl, putOctet_append_digit hc hv0 (by omega),
                List.append_assoc]
              rfl
      · have hc' : isDigit c = false := by simpa using hc
        by_cases hdot : c = '.' ∧ saw = true
        · obtain ⟨rfl, rfl⟩ := hdot
          rcases Nat.lt_or_ge done.length 3 with hlt | hge
          · match post, hpost with
            | [], hpost => rw [List.length_nil] at hpost; omega
            | x :: post, hpost =>
                rw [scan_dot _ _ _ _ _ _ _ hlt] at hvalid ⊢
                obtain ⟨q, rest, hq, htext, hend⟩ := ih (done ++ [v]) 0 post false
                  (by simp; omega) (by simp at hpost ⊢; omega) (by simp) hvalid
                refine ⟨q, rest, hq, ?_, ?_⟩
                · rw [← htext]
                  simp [printed]
                · rw [show 3 - done.length = (3 - (done ++ [v]).length) + 1 by simp; omega,
                    List.drop_succ_cons]
                  exact hend
          · rw [scan_dot_full _ _ _ _ _ _ (by omega)] at hvalid
            exact absurd hvalid (by simp [InetPton4Status.isValid])
        · rw [scan_other _ _ _ _ _ _ _ hc' hdot] at hvalid ⊢
          split_ifs at hvalid ⊢ with hsp
          · obtain ⟨hfour, rfl⟩ := hsp
            have hsaw : saw = true := by
              cases saw with
              | true => rfl
              | false => rw [Bool.toNat_false] at hfour; omega
            have hthree : done.length = 3 := by
              rw [hsaw, Bool.toNat_true] at hfour
              omega
            refine ⟨done ++ [v], c :: src, by simp [hthree], ?_, ?_⟩
            · rw [hsaw, printed_three hthree]
            · rw [hthree]
              simpa using Ends4.special src
          · exact absurd hvalid (by simp [InetPton4Status.isValid])

/-- `inet_pton4` accepts only what `inet_ntop4` writes. -/
theorem inetPton4_valid (special : Char) (src : List Char) (base : List UInt8)
    {old : List UInt8} (hold : old.length = 4) (post : List UInt8)
    (hvalid : (inetPton4 src (base ++ old ++ post) base.length special).status.isValid = true) :
    ∃ q rest, q.length = 4 ∧ src = inetNtop4 q ++ rest ∧
      Ends4 special (base ++ q ++ post) rest
        (inetPton4 src (base ++ old ++ post) base.length special) := by
  obtain ⟨w, x, y, z, rfl⟩ := exists_four hold
  rw [List.append_assoc, List.cons_append, inetPton4_eq_scan] at hvalid ⊢
  exact scan_valid special base src [] 0 (x :: y :: z :: post) false (by simp) (by simp)
    (by simp) hvalid

end Webpp.Ip
