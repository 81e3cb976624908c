import Webpp.Ip.InetPton6

/-!
# What `inet_pton6` accepts

`inet_pton6` accepts a text exactly when it is an address followed by one of the
four endings of `Stops`, and then it stores that address. Two of the endings are
the expected ones; the other two are a colon before the special character, and
the `/` at which the quad stopped although another special character was asked
for.
-/

namespace Webpp.Ip

open Webpp.Text

variable {st : InetPton6Status} {out : List UInt8} {bs : List UInt8} {t : List Char}
  {rest src : List Char} {e : Ending} {s : List Char} {g : List Char}

/-- What may follow an address that ends as `e`, with the status and the text left
by the parser. -/
inductive Stops (special : Char) :
    Ending → List Char → InetPton6Status → List Char → Prop where
  | finish (e : Ending) : Stops special e [] .valid []
  | special (e : Ending) (src : List Char) (h : e = .quad → special = '/') :
      Stops special e (special :: src) .validSpecial (special :: src)
  | colon (src : List Char) :
      Stops special .group (':' :: special :: src) .validSpecial (special :: src)
  | slash (src : List Char) (h : special ≠ '/') :
      Stops special .quad ('/' :: src) .valid ('/' :: src)

variable {special : Char} {cur : Option Char} {w post : List UInt8} {colon : Option ℕ}

theorem length_le_of_closeBytes (h : closeBytes w colon = some out) :
    w.length ≤ 16 := by
  cases colon with
  | none =>
      rw [closeBytes] at h
      split_ifs at h with hlen
      omega
  | some p =>
      rw [closeBytes] at h
      split_ifs at h with hlen
      omega

/-! ## Ends of a text -/

theorem resume_finish (token : List Char) (hcur : cur ≠ some special)
    (hbuf : w.length + post.length = 16) (hcolon : ∀ p ∈ colon, p ≤ w.length)
    (h : closeBytes w colon = some out) :
    resume special [] (atGroup token cur w colon post) = ⟨.valid, [], out⟩ :=
  conclude_of_closeBytes [] rfl rfl hbuf hcolon h (if_neg hcur)

theorem resume_special (hspecial : ¬ IsAddressChar special) (token src : List Char)
    (hbuf : w.length + post.length = 16) (hcolon : ∀ p ∈ colon, p ≤ w.length)
    (h : closeBytes w colon = some out) :
    resume special (special :: src) (atGroup token cur w colon post) =
      ⟨.validSpecial, special :: src, out⟩ := by
  simp only [IsAddressChar, not_or, Bool.not_eq_true] at hspecial
  obtain ⟨hhex, hne, hdot⟩ := hspecial
  rw [resume, inetPton6Loop, hexDigitSafe_eq_none hhex]
  simp only
  rw [if_neg hne, if_neg (fun h => hdot h.1), if_pos trivial]
  exact conclude_of_closeBytes (special :: src) rfl rfl hbuf hcolon h (if_pos rfl)

theorem resume_nil (q : Pton6State) :
    resume special [] q = finishPton6 special (.left [] q) := rfl

theorem finish_inGroup (hg : IsGroup g) (token src : List Char)
    (hbuf : w.length + post.length = 16) (hcolon : ∀ p ∈ colon, p ≤ w.length)
    (h : closeBytes (w ++ groupBytes g) colon = some out) (hst : endStatus special cur = st) :
    finishPton6 special (.left src (inGroup token g cur w colon post)) = ⟨st, src, out⟩ := by
  have hlen := length_le_of_closeBytes h
  rw [List.length_append, length_groupBytes] at hlen
  have hseen : (inGroup token g cur w colon post).hexSeen > 0 := hg.pos
  have hroom : ¬ (inGroup token g cur w colon post).out + 2 > ipv6ByteCount := by
    simp only [inGroup, ipv6ByteCount]
    omega
  rw [finishPton6, if_pos hseen, if_neg hroom, writeVal_inGroup hg cur colon (by omega)]
  refine conclude_of_closeBytes src rfl rfl ?_ ?_ h hst
  · simp only [List.length_append, length_groupBytes, List.length_drop]
    omega
  · intro p hp
    have hle := hcolon p hp
    rw [List.length_append]
    omega

theorem finish_inGroup_invalid (hg : IsGroup g) (token src : List Char)
    (hbuf : w.length + post.length = 16) (h : closeBytes (w ++ groupBytes g) colon = none) :
    (finishPton6 special (.left src (inGroup token g cur w colon post))).status.isValid =
      false := by
  have hseen : (inGroup token g cur w colon post).hexSeen > 0 := hg.pos
  rw [finishPton6, if_pos hseen]
  by_cases hroom : 2 ≤ post.length
  · rw [if_neg (by simp only [inGroup, ipv6ByteCount]; omega),
      writeVal_inGroup hg cur colon hroom]
    refine conclude_of_closeBytes_none src (w := w ++ groupBytes g) rfl ?_ h
    rw [List.length_append, length_groupBytes]
    omega
  · rw [if_pos (by simp only [inGroup, ipv6ByteCount]; omega)]
    rfl

theorem resume_inGroup_special (hspecial : ¬ IsAddressChar special) (token g src : List Char) :
    resume special (special :: src) (inGroup token g cur w colon post) =
      finishPton6 special (.left (special :: src)
        (inGroup token g (some special) w colon post)) := by
  simp only [IsAddressChar, not_or, Bool.not_eq_true] at hspecial
  obtain ⟨hhex, hne, hdot⟩ := hspecial
  rw [resume, inetPton6Loop, hexDigitSafe_eq_none hhex]
  simp only
  rw [if_neg hne, if_neg (fun h => hdot h.1), if_pos trivial]
  rfl

/-! ## The quad -/

/-- A dot hands the group to `inet_pton4`, from its first character on. -/
theorem resume_dot (token g src : List Char) (hroom : 4 ≤ post.length)
    (hbuf : w.length + post.length = 16) (hstart : w ≠ [] ∨ colon.isSome = true) :
    resume special ('.' :: src) (inGroup token g cur w colon post) =
      finishPton6 special (leaveQuad (inGroup token g (some '.') w colon post)
        (inetPton4 token (w ++ post) w.length '/')) := by
  have hnone : hexDigitSafe '.' = none := by decide
  have hcolon : ¬ '.' = ':' := by decide
  rw [resume, inetPton6Loop, hnone]
  simp only
  rw [if_neg hcolon, if_pos ?_]
  · rfl
  · refine ⟨trivial, ?_, ?_⟩
    · simp only [inGroup, ipv4ByteCount, ipv6ByteCount]
      omega
    · exact hstart.imp_left fun h => by simpa [inGroup] using h

/-- The result of a quad that `inet_pton4` read. -/
theorem finish_quad (token g : List Char) {rest : List Char} {q out : List UInt8} (hq : q.length = 4)
    (hroom : 4 ≤ post.length) (hbuf : w.length + post.length = 16)
    (hcolon : ∀ p ∈ colon, p ≤ w.length) (hdot : special ≠ '.')
    (hclose : closeBytes (w ++ q) colon = some out) {r : Pton4}
    (hr : Ends4 '/' (w ++ q ++ post.drop 4) rest r) :
    ∃ st src, Stops special .quad rest st src ∧
      finishPton6 special (leaveQuad (inGroup token g (some '.') w colon post) r) =
        ⟨st, src, out⟩ := by
  have hbuf' : (w ++ q).length + (post.drop 4).length = 16 := by
    rw [List.length_append, List.length_drop]
    omega
  have hcolon' : ∀ p ∈ colon, p ≤ (w ++ q).length := by
    intro p hp
    have hle := hcolon p hp
    rw [List.length_append]
    omega
  have hout : w.length + 4 = (w ++ q).length := by rw [List.length_append, hq]
  have hne : some '.' ≠ some special := fun h => hdot (Option.some.inj h).symm
  cases hr with
  | finish =>
      exact ⟨.valid, [], .finish .quad,
        conclude_of_closeBytes [] hout rfl hbuf' hcolon' hclose (if_neg hne)⟩
  | special src =>
      by_cases hsp : special = '/'
      · subst hsp
        exact ⟨.validSpecial, '/' :: src, .special .quad src fun _ => rfl,
          conclude_of_closeBytes ('/' :: src) hout rfl hbuf' hcolon' hclose (if_pos rfl)⟩
      · have hne' : some '/' ≠ some special := fun h => hsp (Option.some.inj h).symm
        exact ⟨.valid, '/' :: src, .slash src hsp,
          conclude_of_closeBytes ('/' :: src) hout rfl hbuf' hcolon' hclose (if_neg hne')⟩

theorem finish_quad_invalid (token g : List Char) {rest : List Char} {q : List UInt8} (hq : q.length = 4)
    (hroom : 4 ≤ post.length) (hbuf : w.length + post.length = 16)
    (hclose : closeBytes (w ++ q) colon = none) {r : Pton4}
    (hr : Ends4 '/' (w ++ q ++ post.drop 4) rest r) :
    (finishPton6 special
      (leaveQuad (inGroup token g (some '.') w colon post) r)).status.isValid = false := by
  have hout : w.length + 4 = (w ++ q).length := by rw [List.length_append, hq]
  have hle : (w ++ q).length ≤ 16 := by rw [List.length_append]; omega
  cases hr with
  | finish => exact conclude_of_closeBytes_none [] hout hle hclose
  | special src => exact conclude_of_closeBytes_none ('/' :: src) hout hle hclose

/-- An embedded text that `inet_pton4` rejects is rejected. -/
theorem leaveQuad_invalid {q : Pton6State} {r : Pton4} (h : r.status.isValid = false) :
    (finishPton6 special (leaveQuad q r)).status.isValid = false := by
  unfold leaveQuad
  cases hr : r.status with
  | valid => rw [hr] at h; exact absurd h (by decide)
  | validSpecial => rw [hr] at h; exact absurd h (by decide)
  | _ => rfl

/-! ## Addresses are accepted -/

theorem split_post (w post : List UInt8) (n : ℕ) :
    w ++ post = w ++ post.take n ++ post.drop n := by
  rw [List.append_assoc, List.take_append_drop]

theorem Stops.quad_unique {rest src src' : List Char} {st st' : InetPton6Status}
    (h : Stops special .quad rest st src) (h' : Stops special .quad rest st' src') :
    st = st' ∧ src = src' := by
  cases h with
  | finish =>
      cases h'
      exact ⟨rfl, rfl⟩
  | special _ src hslash =>
      cases h' with
      | special => exact ⟨rfl, rfl⟩
      | slash _ hne => exact absurd (hslash rfl) hne
  | slash src hne =>
      cases h' with
      | special => exact absurd rfl hne
      | slash => exact ⟨rfl, rfl⟩

/-- `inet_pton4` reads the quad up to the ending. -/
theorem Stops.ends4
    (h : Stops special .quad rest st src) {q : List UInt8} (hq : q.length = 4) (w : List UInt8)
    (hroom : 4 ≤ post.length) : Ends4 '/' (w ++ q ++ post.drop 4) rest
      (inetPton4 (inetNtop4 q ++ rest) (w ++ post) w.length '/') := by
  have hold : (post.take 4).length = 4 := by
    rw [List.length_take]
    omega
  rw [split_post w post 4]
  cases h with
  | finish =>
      rw [List.append_nil, inetPton4_inetNtop4 '/' w hq hold]
      exact .finish
  | special _ src hslash =>
      obtain rfl := hslash rfl
      rw [inetPton4_inetNtop4_append '/' w hq hold _ (by decide) (by decide), if_pos rfl]
      exact .special src
  | slash src hne =>
      rw [inetPton4_inetNtop4_append '/' w hq hold _ (by decide) (by decide), if_pos rfl]
      exact .special src

theorem started_of_closeBytes {q out : List UInt8} (hq : q.length = 4)
    (h : closeBytes (w ++ q) colon = some out) : w ≠ [] ∨ colon.isSome = true := by
  cases colon with
  | some p => exact .inr rfl
  | none =>
      rw [closeBytes] at h
      split_ifs at h with hfull
      refine .inl fun hw => ?_
      rw [hw, List.nil_append, hq] at hfull
      exact absurd hfull (by decide)

theorem resume_quad (hspecial : ¬ IsAddressChar special) {q : List UInt8} (hq : q.length = 4)
    (hstop : Stops special .quad rest st src)
    (hcur : cur ≠ some special) (hbuf : w.length + post.length = 16)
    (hcolon : ∀ p ∈ colon, p ≤ w.length) (hclose : closeBytes (w ++ q) colon = some out) :
    resume special (dottedQuad q ++ rest) (atGroup (dottedQuad q ++ rest) cur w colon post) =
      ⟨st, src, out⟩ := by
  simp only [IsAddressChar, not_or, Bool.not_eq_true] at hspecial
  obtain ⟨hhex, -, hnedot⟩ := hspecial
  have hlen := length_le_of_closeBytes hclose
  rw [List.length_append, hq] at hlen
  obtain ⟨o, tail, -, htext⟩ := exists_dottedQuad hq
  have hdigits : ∀ c ∈ putOctet o, isHexDigit c = true :=
    fun c hc => isHexDigit_of_isDigit (isDigit_of_mem_putOctet hc)
  have hsplit : dottedQuad q ++ rest = putOctet o ++ ('.' :: (tail ++ rest)) := by
    rw [htext]
    simp
  obtain ⟨cur', -, hres⟩ := resume_group hhex hdigits
    (by have := (length_putOctet o).2; omega) (dottedQuad q ++ rest)
    ('.' :: (tail ++ rest)) hcur w colon post
  rw [← hsplit] at hres
  rw [hres, resume_dot _ _ _ (by omega) hbuf (started_of_closeBytes hq hclose),
    ← inetNtop4_eq_dottedQuad hq]
  obtain ⟨st', src', hstop', hfin⟩ := finish_quad (inetNtop4 q ++ rest) (putOctet o) hq (by omega)
    hbuf hcolon hnedot hclose (hstop.ends4 hq w (by omega))
  obtain ⟨rfl, rfl⟩ := hstop.quad_unique hstop'
  exact hfin

theorem resume_last_group (hspecial : ¬ IsAddressChar special) (hg : IsGroup g)
    (hstop : Stops special .group rest st src)
    (hcur : cur ≠ some special) (hbuf : w.length + post.length = 16)
    (hcolon : ∀ p ∈ colon, p ≤ w.length)
    (hclose : closeBytes (w ++ groupBytes g) colon = some out) :
    resume special (g ++ rest) (atGroup (g ++ rest) cur w colon post) = ⟨st, src, out⟩ := by
  have hhex : isHexDigit special = false := by
    simp only [IsAddressChar, not_or, Bool.not_eq_true] at hspecial
    exact hspecial.1
  have hlen := length_le_of_closeBytes hclose
  rw [List.length_append, length_groupBytes] at hlen
  obtain ⟨cur', hcur', hres⟩ := resume_group hhex hg.hex hg.le_four (g ++ rest) rest hcur w colon post
  rw [hres]
  cases hstop with
  | finish => exact finish_inGroup hg _ [] hbuf hcolon hclose (if_neg hcur')
  | special _ src _ =>
      rw [resume_inGroup_special hspecial]
      exact finish_inGroup hg _ _ hbuf hcolon hclose (if_pos rfl)
  | colon src =>
      rw [resume_colon hg cur' colon (by omega) hbuf (by simp)]
      refine resume_special hspecial _ src ?_ ?_ hclose
      · simp only [List.length_append, length_groupBytes, List.length_drop]
        omega
      · intro p hp
        have hle := hcolon p hp
        rw [List.length_append]
        omega

theorem resume_of_groups (hspecial : ¬ IsAddressChar special) (h : Groups e t bs)
    (hstop : Stops special e rest st src)
    (hcur : cur ≠ some special) (hbuf : w.length + post.length = 16)
    (hcolon : ∀ p ∈ colon, p ≤ w.length) (hclose : closeBytes (w ++ bs) colon = some out) :
    resume special (t ++ rest) (atGroup (t ++ rest) cur w colon post) =
      ⟨st, src, out⟩ := by
  have hchars := hspecial
  simp only [IsAddressChar, not_or, Bool.not_eq_true] at hchars
  obtain ⟨hhex, hnecolon, -⟩ := hchars
  have hlen := length_le_of_closeBytes hclose
  rw [List.length_append] at hlen
  induction h generalizing w post cur with
  | group hg => exact resume_last_group hspecial hg hstop hcur hbuf hcolon hclose
  | quad hq => exact resume_quad hspecial hq hstop hcur hbuf hcolon hclose
  | @cons g e t bs hg ht ih =>
      rw [List.length_append, length_groupBytes] at hlen
      obtain ⟨cur', -, hres⟩ := resume_group hhex hg.hex hg.le_four (g ++ ':' :: t ++ rest)
        (':' :: (t ++ rest)) hcur w colon post
      have hne : t ++ rest ≠ [] := by simp [ht.ne_nil]
      rw [show g ++ ':' :: t ++ rest = g ++ ':' :: (t ++ rest) by simp] at hres ⊢
      rw [hres, resume_colon hg cur' colon (by omega) hbuf hne]
      have hsize : (w ++ groupBytes g).length = w.length + 2 := by
        rw [List.length_append, length_groupBytes]
      refine ih hstop ?_ ?_ ?_ ?_ ?_
      · exact fun h => hnecolon (Option.some.inj h).symm
      · rw [hsize, List.length_drop]
        omega
      · intro p hp
        have hle := hcolon p hp
        omega
      · rwa [List.append_assoc]
      · omega

/-- The groups before `::` are read up to the start of the next group. -/
theorem resume_before_gap (hspecial : ¬ IsAddressChar special)
    (h : Groups e t bs) (hquad : e ≠ .quad) (hs : s ≠ [])
    (hcur : cur ≠ some special) (hbuf : w.length + post.length = 16)
    (hroom : bs.length ≤ post.length) :
    resume special (t ++ ':' :: s) (atGroup (t ++ ':' :: s) cur w none post) =
      resume special s (atGroup s (some ':') (w ++ bs) none (post.drop bs.length)) := by
  have hchars := hspecial
  simp only [IsAddressChar, not_or, Bool.not_eq_true] at hchars
  obtain ⟨hhex, hnecolon, -⟩ := hchars
  induction h generalizing w post cur with
  | @group g hg =>
      obtain ⟨cur', -, hres⟩ := resume_group hhex hg.hex hg.le_four (g ++ ':' :: s) (':' :: s)
        hcur w none post
      rw [hres, resume_colon hg cur' none hroom hbuf hs]
      rfl
  | quad hq => exact absurd rfl hquad
  | @cons g e t bs hg ht ih =>
      rw [List.length_append, length_groupBytes] at hroom
      obtain ⟨cur', -, hres⟩ := resume_group hhex hg.hex hg.le_four
        (g ++ ':' :: (t ++ ':' :: s)) (':' :: (t ++ ':' :: s)) hcur w none post
      have hsize : (w ++ groupBytes g).length = w.length + 2 := by
        rw [List.length_append, length_groupBytes]
      rw [show g ++ ':' :: t ++ ':' :: s = g ++ ':' :: (t ++ ':' :: s) by simp, hres,
        resume_colon hg cur' none (by omega) hbuf (by simp)]
      rw [ih hquad (fun h => hnecolon (Option.some.inj h).symm)
        (by rw [hsize, List.length_drop]; omega) (by rw [List.length_drop]; omega)]
      rw [List.append_assoc, List.drop_drop, List.length_append, length_groupBytes]

theorem closeBytes_gap (lb rb : List UInt8) (h : lb.length + rb.length ≤ 14) :
    closeBytes (lb ++ rb) (some lb.length) =
      some (lb ++ List.replicate (16 - (lb.length + rb.length)) 0 ++ rb) := by
  rw [closeBytes, List.length_append, if_pos (by omega), List.take_left, List.drop_left]

/-- What is on the right of `::` is read to its end. -/
theorem resume_of_side (hspecial : ¬ IsAddressChar special) (h : Side e t bs)
    (hstop : Stops special e rest st src)
    (hcur : cur ≠ some special) (hbuf : w.length + post.length = 16)
    (hcolon : ∀ p ∈ colon, p ≤ w.length) (hclose : closeBytes (w ++ bs) colon = some out) :
    resume special (t ++ rest) (atGroup (t ++ rest) cur w colon post) =
      ⟨st, src, out⟩ := by
  cases h with
  | groups h => exact resume_of_groups hspecial h hstop hcur hbuf hcolon hclose
  | nil =>
      rw [List.append_nil] at hclose
      cases hstop with
      | finish => exact resume_finish _ hcur hbuf hcolon hclose
      | special _ src _ => exact resume_special hspecial _ src hbuf hcolon hclose

theorem head?_ne_colon_of_hex (hg : g ≠ [])
    (hhex : ∀ c ∈ g, isHexDigit c = true) (s : List Char) : (g ++ s).head? ≠ some ':' := by
  intro hs
  cases g with
  | nil => exact hg rfl
  | cons x g =>
      have hx := hhex x List.mem_cons_self
      rw [List.cons_append, List.head?_cons, Option.some.injEq] at hs
      rw [hs] at hx
      exact absurd hx (by decide)

theorem Groups.head?_ne_colon (h : Groups e t bs) (s : List Char) : (t ++ s).head? ≠ some ':' := by
  cases h with
  | group hg => exact head?_ne_colon_of_hex (List.length_pos_iff.mp hg.pos) hg.hex s
  | quad hq =>
      obtain ⟨o, tail, -, htext⟩ := exists_dottedQuad hq
      rw [htext, List.append_assoc]
      exact head?_ne_colon_of_hex (putOctet_ne_nil o)
        (fun c hc => isHexDigit_of_isDigit (isDigit_of_mem_putOctet hc)) _
  | cons hg _ =>
      rw [List.append_assoc]
      exact head?_ne_colon_of_hex (List.length_pos_iff.mp hg.pos) hg.hex _

theorem inetPton6_of_groups (h : Groups e t bs)
    (s : List Char) (bytes : List UInt8) : inetPton6 (t ++ s) bytes special =
      resume special (t ++ s) (startPton6 (t ++ s) bytes) := by
  have hhead := h.head?_ne_colon s
  cases hts : t ++ s with
  | nil => exact absurd (List.append_eq_nil_iff.mp hts).1 h.ne_nil
  | cons c u =>
      rw [hts, List.head?_cons, ne_eq, Option.some.injEq] at hhead
      unfold inetPton6
      split
      · simp_all
      · simp_all
      · rfl

/-- `inet_pton6` stores an address that is followed by one of the endings. -/
theorem inetPton6_of_address (hspecial : ¬ IsAddressChar special)
    {a rest src : List Char} {bs bytes : List UInt8} (ha : Address e a bs)
    (hbytes : bytes.length = 16) (hstop : Stops special e rest st src) :
    inetPton6 (a ++ rest) bytes special = ⟨st, src, bs⟩ := by
  have hne : (none : Option Char) ≠ some special := by simp
  have hne' : some ':' ≠ some special := by
    intro h
    exact hspecial (Or.inr (Or.inl (Option.some.inj h).symm))
  have hstart : ∀ s, startPton6 s bytes = atGroup s none [] none bytes := fun s => rfl
  cases ha with
  | full h hlen =>
      rw [inetPton6_of_groups h rest, hstart]
      refine resume_of_groups hspecial h hstop hne (by simpa using hbytes) (by simp) ?_
      rw [List.nil_append, closeBytes, if_pos hlen]
  | @gap e' e l r lb rb hl hquad hr hroom =>
      cases hl with
      | nil =>
          have hside : resume special (r ++ rest)
              (atGroup (r ++ rest) (some ':') [] (some 0) bytes) = ⟨st, src, _⟩ :=
            resume_of_side hspecial hr hstop hne' (by simpa using hbytes) (by simp)
              (closeBytes_gap [] rb hroom)
          rw [← hside, List.nil_append]
          change resume special (':' :: (r ++ rest)) (atGroup _ none [] none bytes) = _
          rw [resume_gap]
          rfl
      | groups hl =>
          have hl16 : lb.length ≤ bytes.length := by omega
          have htext : l ++ ':' :: ':' :: r ++ rest = l ++ ':' :: (':' :: (r ++ rest)) := by
            simp
          rw [htext, inetPton6_of_groups hl, hstart, resume_before_gap hspecial hl hquad (by simp) hne
            (by simpa using hbytes) hl16, resume_gap, List.nil_append]
          refine resume_of_side hspecial hr hstop hne' ?_ ?_ (closeBytes_gap lb rb hroom)
          · rw [List.length_drop]
            omega
          · intro p hp
            rw [Option.mem_def, Option.some.injEq] at hp
            omega

/-! ## Nothing else is accepted -/

/-- From the bytes `w` the text `s` completes an address without another `::`, and
`r` is the result. -/
def Completes (special : Char) (w : List UInt8) (colon : Option ℕ) (s : List Char)
    (r : Pton6) : Prop :=
  ∃ e t bs rest, s = t ++ rest ∧ Side e t bs ∧ Stops special e rest r.status r.src ∧
    closeBytes (w ++ bs) colon = some r.bytes

theorem exists_digits (s : List Char) :
    ∃ g rest, s = g ++ rest ∧ (∀ c ∈ g, isHexDigit c = true) ∧
      ∀ c u, rest = c :: u → isHexDigit c = false := by
  refine ⟨s.takeWhile isHexDigit, s.dropWhile isHexDigit, ?_, ?_, ?_⟩
  · exact List.takeWhile_append_dropWhile.symm
  · exact fun c hc => List.mem_takeWhile_imp hc
  · intro c u hu
    have h := List.head?_dropWhile_not isHexDigit s
    rw [hu, List.head?_cons] at h
    simpa using h

theorem resume_long (hspecial : isHexDigit special = false)
    (hg : ∀ c ∈ g, isHexDigit c = true) (hlen : 4 < g.length) (token rest : List Char)
    (hcur : cur ≠ some special) :
    (resume special (g ++ rest) (atGroup token cur w colon post)).status.isValid = false := by
  obtain ⟨c, u, hu⟩ : ∃ c u, g.drop 4 = c :: u := by
    refine List.exists_cons_of_ne_nil ?_
    rw [ne_eq, List.drop_eq_nil_iff]
    omega
  have hsplit : g ++ rest = g.take 4 ++ c :: (u ++ rest) := by
    rw [← List.cons_append, ← hu, ← List.append_assoc, List.take_append_drop]
  have hfour : (g.take 4).length = 4 := by rw [List.length_take]; omega
  obtain ⟨cur', -, hres⟩ := resume_group hspecial
    (fun x hx => hg x (List.mem_of_mem_take hx)) (by rw [hfour]) token (c :: (u ++ rest)) hcur
    w colon post
  have hc : isHexDigit c = true :=
    hg c (List.mem_of_mem_drop (by rw [hu]; exact List.mem_cons_self))
  rw [hsplit, hres, resume_fifth_digit hc _ hfour]
  rfl

theorem inetPton4_dot_invalid (u : List Char) (hroom : 4 ≤ post.length) :
    (inetPton4 ('.' :: u) (w ++ post) w.length '/').status.isValid = false := by
  by_contra hval
  have hold : (post.take 4).length = 4 := by rw [List.length_take]; omega
  rw [split_post w post 4, Bool.not_eq_false] at hval
  obtain ⟨q, rest, hq, htext, -⟩ := inetPton4_valid '/' _ w hold _ hval
  obtain ⟨o, tail, -, hquad⟩ := exists_dottedQuad hq
  rw [inetNtop4_eq_dottedQuad hq, hquad] at htext
  obtain ⟨x, y, hxy⟩ := List.exists_cons_of_ne_nil (putOctet_ne_nil o)
  have hx : isDigit x = true :=
    isDigit_of_mem_putOctet (o := o) (by rw [hxy]; exact List.mem_cons_self)
  rw [hxy, List.cons_append, List.cons_append, List.cons.injEq] at htext
  rw [← htext.1] at hx
  exact absurd hx (by decide)

theorem resume_cases_start (hspecial : ¬ IsAddressChar special)
    (hs : ∀ c u, s = c :: u → isHexDigit c = false) (hcur : cur ≠ some special)
    (hbuf : w.length + post.length = 16) (hcolon : ∀ p ∈ colon, p ≤ w.length)
    (hvalid : (resume special s (atGroup s cur w colon post)).status.isValid = true) :
    Completes special w colon s (resume special s (atGroup s cur w colon post)) ∨
      ∃ u, s = ':' :: u ∧ colon = none := by
  cases s with
  | nil =>
      cases hclose : closeBytes w colon with
      | none =>
          have hend : (resume special [] (atGroup [] cur w colon post)).status.isValid = false :=
            conclude_of_closeBytes_none [] (w := w) rfl (by omega) hclose
          rw [hend] at hvalid
          exact absurd hvalid (by decide)
      | some out =>
          rw [resume_finish _ hcur hbuf hcolon hclose]
          exact Or.inl ⟨.gap, [], [], [], rfl, .nil, .finish .gap, by simpa using hclose⟩
  | cons c u =>
      have hc := hs c u rfl
      by_cases hcol : c = ':'
      · subst hcol
        cases colon with
        | none => exact Or.inr ⟨u, rfl, rfl⟩
        | some p =>
            rw [resume_second_gap] at hvalid
            exact absurd hvalid (by decide)
      · by_cases hsp : c = special
        · subst hsp
          cases hclose : closeBytes w colon with
          | none =>
              have hend : (resume c (c :: u) (atGroup (c :: u) cur w colon post)).status.isValid =
                  false := by
                refine (congrArg (fun r : Pton6 => r.status.isValid)
                  (resume_inGroup_special hspecial (c :: u) [] u)).trans ?_
                exact conclude_of_closeBytes_none (c :: u) (w := w) rfl (by omega) hclose
              rw [hend] at hvalid
              exact absurd hvalid (by decide)
          | some out =>
              rw [resume_special hspecial _ u hbuf hcolon hclose]
              exact Or.inl ⟨.gap, [], [], c :: u, rfl, .nil, .special .gap u (by simp),
                by simpa using hclose⟩
        · by_cases hdot : c = '.' ∧ (atGroup (c :: u) cur w colon post).out +
              ipv4ByteCount ≤ ipv6ByteCount ∧
              ((atGroup (c :: u) cur w colon post).out ≠ 0 ∨
                (atGroup (c :: u) cur w colon post).colonPtr.isSome)
          · obtain ⟨rfl, hroom, hstart⟩ := hdot
            simp only [atGroup, ipv4ByteCount, ipv6ByteCount] at hroom hstart
            have hstart' : w ≠ [] ∨ colon.isSome = true :=
              hstart.imp_left fun h => by simpa using h
            have hend : (resume special ('.' :: u)
                (atGroup ('.' :: u) cur w colon post)).status.isValid = false := by
              refine (congrArg (fun r : Pton6 => r.status.isValid)
                (resume_dot ('.' :: u) [] u (by omega) hbuf hstart')).trans ?_
              exact leaveQuad_invalid (inetPton4_dot_invalid u (by omega))
            rw [hend] at hvalid
            exact absurd hvalid (by decide)
          · rw [resume_other hc hcol hsp u hdot] at hvalid
            exact absurd hvalid (by decide)

theorem resume_cases_group (hspecial : ¬ IsAddressChar special) {g rest : List Char}
    (hg : IsGroup g) (hrest : ∀ c u, rest = c :: u → isHexDigit c = false)
    (hcur : cur ≠ some special) (hbuf : w.length + post.length = 16)
    (hcolon : ∀ p ∈ colon, p ≤ w.length)
    (hvalid : (resume special rest
      (inGroup (g ++ rest) g cur w colon post)).status.isValid = true) :
    Completes special w colon (g ++ rest)
        (resume special rest (inGroup (g ++ rest) g cur w colon post)) ∨
      ∃ u, rest = ':' :: u ∧ u ≠ [] ∧ 2 ≤ post.length := by
  have hnedot : special ≠ '.' := fun h => hspecial (Or.inr (Or.inr h))
  cases rest with
  | nil =>
      rw [List.append_nil] at hvalid ⊢
      cases hclose : closeBytes (w ++ groupBytes g) colon with
      | none =>
          rw [resume_nil, finish_inGroup_invalid hg g [] hbuf hclose] at hvalid
          exact absurd hvalid (by decide)
      | some out =>
          rw [resume_nil, finish_inGroup hg g [] hbuf hcolon hclose (if_neg hcur)]
          exact Or.inl ⟨.group, g, groupBytes g, [], by simp, .groups (.group hg),
            .finish .group, hclose⟩
  | cons c u =>
      have hc := hrest c u rfl
      by_cases hcol : c = ':'
      · subst hcol
        by_cases hgo : u ≠ [] ∧ 2 ≤ post.length
        · exact Or.inr ⟨u, rfl, hgo⟩
        · rw [resume_colon_invalid hg cur colon hbuf ?_] at hvalid
          · exact absurd hvalid (by decide)
          · by_cases hu : u = []
            · exact Or.inl hu
            · exact Or.inr (Nat.lt_of_not_le fun h => hgo ⟨hu, h⟩)
      · by_cases hsp : c = special
        · subst hsp
          rw [resume_inGroup_special hspecial] at hvalid ⊢
          cases hclose : closeBytes (w ++ groupBytes g) colon with
          | none =>
              rw [finish_inGroup_invalid hg _ _ hbuf hclose] at hvalid
              exact absurd hvalid (by decide)
          | some out =>
              rw [finish_inGroup hg _ _ hbuf hcolon hclose (if_pos rfl)]
              exact Or.inl ⟨.group, g, groupBytes g, c :: u, rfl, .groups (.group hg),
                .special .group u (by simp), hclose⟩
        · by_cases hdot : c = '.' ∧ (inGroup (g ++ c :: u) g cur w colon post).out +
              ipv4ByteCount ≤ ipv6ByteCount ∧
              ((inGroup (g ++ c :: u) g cur w colon post).out ≠ 0 ∨
                (inGroup (g ++ c :: u) g cur w colon post).colonPtr.isSome)
          · obtain ⟨rfl, hroom, hstart⟩ := hdot
            simp only [inGroup, ipv4ByteCount, ipv6ByteCount] at hroom hstart
            have hstart' : w ≠ [] ∨ colon.isSome = true :=
              hstart.imp_left fun h => by simpa using h
            have hold : (post.take 4).length = 4 := by rw [List.length_take]; omega
            rw [resume_dot _ g u (by omega) hbuf hstart'] at hvalid ⊢
            cases hquad : (inetPton4 (g ++ '.' :: u) (w ++ post) w.length '/').status.isValid with
            | false =>
                rw [leaveQuad_invalid hquad] at hvalid
                exact absurd hvalid (by decide)
            | true =>
                rw [split_post w post 4] at hquad
                obtain ⟨q, rest, hq, htext, hends⟩ := inetPton4_valid '/' _ w hold _ hquad
                rw [← split_post w post 4] at hends
                cases hclose : closeBytes (w ++ q) colon with
                | none =>
                    rw [finish_quad_invalid _ g hq (by omega) hbuf hclose hends] at hvalid
                    exact absurd hvalid (by decide)
                | some out =>
                    obtain ⟨st, src, hst, hfin⟩ := finish_quad (g ++ '.' :: u) g hq (by omega)
                      hbuf hcolon hnedot hclose hends
                    rw [hfin]
                    rw [inetNtop4_eq_dottedQuad hq] at htext
                    exact Or.inl ⟨.quad, dottedQuad q, q, rest, htext, .groups (.quad hq), hst,
                      hclose⟩
          · rw [resume_other hc hcol hsp u hdot] at hvalid
            exact absurd hvalid (by decide)

/-- What a parse that succeeds does at the start of a group: it ends there or after
one more group or quad, it meets the second colon of `::`, or it reads a group
and its colon. -/
theorem resume_cases (hspecial : ¬ IsAddressChar special)
    (hcur : cur ≠ some special) (hbuf : w.length + post.length = 16)
    (hcolon : ∀ p ∈ colon, p ≤ w.length)
    (hvalid : (resume special s (atGroup s cur w colon post)).status.isValid = true) :
    Completes special w colon s (resume special s (atGroup s cur w colon post)) ∨
      (∃ u, s = ':' :: u ∧ colon = none) ∨
      ∃ g u, IsGroup g ∧ s = g ++ ':' :: u ∧ u ≠ [] ∧ 2 ≤ post.length := by
  have hhex : isHexDigit special = false := by
    rw [← Bool.not_eq_true]
    exact fun h => hspecial (Or.inl h)
  obtain ⟨g, rest, hs, hg, hrest⟩ := exists_digits s
  by_cases hempty : g = []
  · rw [hempty, List.nil_append] at hs
    rcases resume_cases_start hspecial (hs ▸ hrest) hcur hbuf hcolon hvalid with h | h
    · exact Or.inl h
    · exact Or.inr (Or.inl h)
  · rcases Nat.lt_or_ge 4 g.length with hlong | hlen
    · rw [hs, resume_long hhex hg hlong _ rest hcur] at hvalid
      exact absurd hvalid (by decide)
    · have hgroup : IsGroup g := ⟨List.length_pos_iff.mpr hempty, hlen, hg⟩
      obtain ⟨cur', hcur', hres⟩ := resume_group hhex hg hlen (g ++ rest) rest hcur w colon post
      rw [hs, hres] at hvalid ⊢
      rcases resume_cases_group hspecial hgroup hrest hcur' hbuf hcolon hvalid with
        h | ⟨u, hu, hne, hroom⟩
      · exact Or.inl h
      · exact Or.inr (Or.inr ⟨g, u, hgroup, by rw [hu], hne, hroom⟩)

theorem resume_group_colon (hspecial : isHexDigit special = false) {g u : List Char}
    (hg : IsGroup g) (hu : u ≠ []) (hcur : cur ≠ some special)
    (hbuf : w.length + post.length = 16) (hroom : 2 ≤ post.length) :
    resume special (g ++ ':' :: u) (atGroup (g ++ ':' :: u) cur w colon post) =
      resume special u (atGroup u (some ':') (w ++ groupBytes g) colon (post.drop 2)) := by
  obtain ⟨cur', -, hres⟩ := resume_group hspecial hg.hex hg.le_four (g ++ ':' :: u) (':' :: u)
    hcur w colon post
  rw [hres, resume_colon hg cur' colon hroom hbuf hu]

theorem Completes.cons {g u : List Char} (hg : IsGroup g) (hu : u ≠ []) {r : Pton6}
    (h : Completes special (w ++ groupBytes g) colon u r) :
    Completes special w colon (g ++ ':' :: u) r := by
  obtain ⟨e, t, bs, rest, rfl, hside, hstop, hclose⟩ := h
  rw [List.append_assoc] at hclose
  cases hside with
  | groups ht =>
      exact ⟨e, g ++ ':' :: t, groupBytes g ++ bs, rest, by simp, .groups (.cons hg ht), hstop,
        hclose⟩
  | nil =>
      rw [List.append_nil] at hclose
      obtain ⟨st, src, out⟩ := r
      cases hstop with
      | finish => exact absurd rfl hu
      | special _ src _ =>
          exact ⟨.group, g, groupBytes g, ':' :: special :: src, rfl, .groups (.group hg),
            .colon src, hclose⟩

section Accepted

variable (hspecial : ¬ IsAddressChar special)
include hspecial

theorem isHexDigit_special : isHexDigit special = false := by
  rw [← Bool.not_eq_true]
  exact fun h => hspecial (Or.inl h)

theorem colon_ne_special : some ':' ≠ some special :=
  fun h => hspecial (Or.inr (Or.inl (Option.some.inj h).symm))

theorem completes_after_gap {p : ℕ} (n : ℕ) (hn : s.length ≤ n)
    (hcur : cur ≠ some special) (hbuf : w.length + post.length = 16) (hp : p ≤ w.length)
    (hvalid : (resume special s (atGroup s cur w (some p) post)).status.isValid = true) :
    Completes special w (some p) s (resume special s (atGroup s cur w (some p) post)) := by
  have hcolon : ∀ p' ∈ some p, p' ≤ w.length := by
    rintro p' hp'
    rw [Option.mem_def, Option.some.injEq] at hp'
    omega
  induction n generalizing s w post cur with
  | zero =>
      rcases resume_cases hspecial hcur hbuf hcolon hvalid with
        h | ⟨u, -, hnone⟩ | ⟨g, u, -, rfl, -⟩
      · exact h
      · exact absurd hnone (by simp)
      · simp at hn
  | succ n ih =>
      rcases resume_cases hspecial hcur hbuf hcolon hvalid with
        h | ⟨u, -, hnone⟩ | ⟨g, u, hg, rfl, hu, hroom⟩
      · exact h
      · exact absurd hnone (by simp)
      · rw [resume_group_colon (isHexDigit_special hspecial) hg hu hcur hbuf hroom] at hvalid ⊢
        have hsize : (w ++ groupBytes g).length = w.length + 2 := by
          rw [List.length_append, length_groupBytes]
        rw [List.length_append, List.length_cons] at hn
        refine .cons hg hu (ih (by omega) (colon_ne_special hspecial) ?_ (by omega) hvalid ?_)
        · rw [hsize, List.length_drop]
          omega
        · intro p' hp'
          have := hcolon p' hp'
          omega

/-- The second colon of `::`, and what completes the address behind it. -/
theorem completes_of_colon {u : List Char} (hbuf : w.length + post.length = 16)
    (hvalid : (resume special (':' :: u)
      (atGroup (':' :: u) cur w none post)).status.isValid = true) :
    Completes special (w ++ []) (some (w ++ []).length) u
      (resume special (':' :: u) (atGroup (':' :: u) cur w none post)) := by
  rw [resume_gap] at hvalid ⊢
  rw [List.append_nil]
  exact completes_after_gap hspecial u.length (Nat.le_refl _) (colon_ne_special hspecial) hbuf
    (Nat.le_refl _) hvalid

/-- The text from the start of a group completes an address, with the groups `l`
before `::` if there is one. -/
theorem completes_or_gap (n : ℕ) (hn : s.length ≤ n)
    (hcur : cur ≠ some special) (hbuf : w.length + post.length = 16)
    (hvalid : (resume special s (atGroup s cur w none post)).status.isValid = true) :
    Completes special w none s (resume special s (atGroup s cur w none post)) ∨
      ∃ l lb u, (l = [] ∧ lb = [] ∨ ∃ l', l = l' ++ [':'] ∧ Groups .group l' lb) ∧
        s = l ++ ':' :: u ∧
        Completes special (w ++ lb) (some (w ++ lb).length) u
          (resume special s (atGroup s cur w none post)) := by
  induction n generalizing s w post cur with
  | zero =>
      rcases resume_cases hspecial hcur hbuf (by simp) hvalid with
        h | ⟨u, rfl, -⟩ | ⟨g, u, -, rfl, -⟩
      · exact Or.inl h
      · exact Or.inr ⟨[], [], u, Or.inl ⟨rfl, rfl⟩, rfl, completes_of_colon hspecial hbuf hvalid⟩
      · simp at hn
  | succ n ih =>
      rcases resume_cases hspecial hcur hbuf (by simp) hvalid with
        h | ⟨u, rfl, -⟩ | ⟨g, u, hg, rfl, hu, hroom⟩
      · exact Or.inl h
      · exact Or.inr ⟨[], [], u, Or.inl ⟨rfl, rfl⟩, rfl, completes_of_colon hspecial hbuf hvalid⟩
      · rw [resume_group_colon (isHexDigit_special hspecial) hg hu hcur hbuf hroom] at hvalid ⊢
        have hsize : (w ++ groupBytes g).length = w.length + 2 := by
          rw [List.length_append, length_groupBytes]
        have hbuf' : (w ++ groupBytes g).length + (post.drop 2).length = 16 := by
          rw [hsize, List.length_drop]
          omega
        rw [List.length_append, List.length_cons] at hn
        rcases ih (by omega) (colon_ne_special hspecial) hbuf' hvalid with
          h | ⟨l, lb, v, hl, rfl, h⟩
        · exact Or.inl (h.cons hg hu)
        · refine Or.inr ⟨g ++ ':' :: l, groupBytes g ++ lb, v, Or.inr ?_, by simp, ?_⟩
          · rcases hl with ⟨rfl, rfl⟩ | ⟨l', rfl, hl'⟩
            · exact ⟨g, rfl, by simpa using Groups.group hg⟩
            · exact ⟨g ++ ':' :: l', by simp, .cons hg hl'⟩
          · rwa [← List.append_assoc]

end Accepted

theorem Groups.even_length (h : Groups e t bs) : bs.length % 2 = 0 := by
  induction h with
  | group _ => rw [length_groupBytes]
  | quad hq => rw [hq]
  | cons _ _ ih => rw [List.length_append, length_groupBytes, Nat.add_mod, ih]

theorem Side.even_length (h : Side e t bs) : bs.length % 2 = 0 := by
  cases h with
  | nil => rfl
  | groups h => exact h.even_length

theorem length_le_of_closeBytes_gap {lb rb out : List UInt8} (hl : lb.length % 2 = 0)
    (hr : rb.length % 2 = 0) (h : closeBytes (lb ++ rb) (some lb.length) = some out) :
    lb.length + rb.length ≤ 14 := by
  rw [closeBytes] at h
  split_ifs at h with hlt
  rw [List.length_append] at hlt
  omega

/-- A text that `inet_pton6` accepts starts with the address it stores. -/
theorem address_of_inetPton6 (hspecial : ¬ IsAddressChar special)
    {bytes : List UInt8} (hbytes : bytes.length = 16)
    (hvalid : (inetPton6 s bytes special).status.isValid = true) :
    ∃ e a rest, s = a ++ rest ∧ Address e a (inetPton6 s bytes special).bytes ∧
      Stops special e rest (inetPton6 s bytes special).status
        (inetPton6 s bytes special).src := by
  have hne : (none : Option Char) ≠ some special := by simp
  have hgapped : ∀ {e' l lb u r}, Side e' l lb → e' ≠ .quad →
      Completes special lb (some lb.length) u r → ∃ e a rest,
        l ++ ':' :: ':' :: u = a ++ rest ∧ Address e a r.bytes ∧
          Stops special e rest r.status r.src := by
    rintro e' l lb u r hl hquad ⟨e, t, rb, rest, rfl, hside, hstop, hclose⟩
    have hroom := length_le_of_closeBytes_gap hl.even_length hside.even_length hclose
    rw [closeBytes_gap lb rb hroom, Option.some.injEq] at hclose
    refine ⟨e, l ++ ':' :: ':' :: t, rest, by simp, ?_, hstop⟩
    rw [← hclose]
    exact .gap hl hquad hside hroom
  unfold inetPton6 at hvalid ⊢
  split at hvalid
  case h_1 => simp [InetPton6Status.isValid] at hvalid
  case h_2 =>
    split at hvalid
    case h_1 rest =>
      have hstart : resume special (':' :: rest) (startPton6 (':' :: rest) bytes) =
          resume special rest (atGroup rest (some ':') [] (some 0) bytes) :=
        resume_gap _ rest none [] bytes
      rw [hstart] at hvalid ⊢
      exact hgapped .nil (by simp) (completes_after_gap hspecial rest.length (Nat.le_refl _)
        (colon_ne_special hspecial) (by simpa using hbytes) (Nat.le_refl _) hvalid)
    case h_2 => simp [InetPton6Status.isValid] at hvalid
  case h_3 hnil hcolon =>
    have hstart : startPton6 s bytes = atGroup s none [] none bytes := rfl
    rw [hstart] at hvalid ⊢
    rcases completes_or_gap hspecial s.length (Nat.le_refl _) hne (by simpa using hbytes) hvalid
      with ⟨e, t, bs, rest, hs, hside, hstop, hclose⟩ | ⟨l, lb, u, hl, hs, hcomp⟩
    · rw [List.nil_append, closeBytes] at hclose
      split_ifs at hclose with hlen
      rw [← Option.some.inj hclose]
      cases hside with
      | nil => exact absurd hlen (by decide)
      | groups h => exact ⟨e, t, rest, hs, .full h hlen, hstop⟩
    · rcases hl with ⟨rfl, rfl⟩ | ⟨l', rfl, hl'⟩
      · exact absurd hs (hcolon u)
      · obtain ⟨e, a, rest, hsplit, haddr, hstop⟩ := hgapped (.groups hl') (by simp) hcomp
        exact ⟨e, a, rest, by rw [hs, ← hsplit]; simp, haddr, hstop⟩

end Webpp.Ip
