import Webpp.Ip.InetPton4
import Mathlib.Data.List.Induction

/-!
# IPv6 text addresses

The text form of RFC 4291: eight groups of one to four hexadecimal digits, or
fewer with one `::` that stands for at least one group of zeros, the last two
groups optionally written as a dotted quad. `Address e t bytes` says that `t` is
such a text for the sixteen `bytes`; `e` tells how the text ends.

Nothing here mentions a parser.
-/

namespace Webpp.Ip

open Webpp.Text

variable {bs : List UInt8} {t : List Char} {e : Ending} {q : List UInt8} {c : Char}

/-- One to four hexadecimal digits. -/
structure IsGroup (g : List Char) : Prop where
  pos : 1 ≤ g.length
  le_four : g.length ≤ 4
  hex : ∀ c ∈ g, isHexDigit c = true

/-- The value of a hexadecimal numeral that follows the value `v`. -/
def hexValueFrom (v : ℕ) (g : List Char) : ℕ :=
  g.foldl (fun v c => v * 16 + (hexDigitSafe c).getD 0) v

/-- The two bytes of a group, the high one first. -/
def groupBytes (g : List Char) : List UInt8 :=
  [UInt8.ofNat (hexValueFrom 0 g / 256), UInt8.ofNat (hexValueFrom 0 g % 256)]

/-- Four decimal octets with dots between them. -/
def dottedQuad (q : List UInt8) : List Char :=
  List.intercalate ['.'] (q.map fun o => Nat.toDigits 10 o.toNat)

/-- How an address text ends. -/
inductive Ending where
  | gap
  | group
  | quad
  deriving DecidableEq

/-- Groups with colons between them, and the bytes they stand for. -/
inductive Groups : Ending → List Char → List UInt8 → Prop where
  | group {g : List Char} : IsGroup g → Groups .group g (groupBytes g)
  | quad {q : List UInt8} : q.length = 4 → Groups .quad (dottedQuad q) q
  | cons {g : List Char} {e : Ending} {t : List Char} {bs : List UInt8} :
      IsGroup g → Groups e t bs → Groups e (g ++ ':' :: t) (groupBytes g ++ bs)

/-- What stands on one side of `::`. -/
inductive Side : Ending → List Char → List UInt8 → Prop where
  | nil : Side .gap [] []
  | groups {e : Ending} {t : List Char} {bs : List UInt8} : Groups e t bs → Side e t bs

/-- The text of an IPv6 address. -/
inductive Address : Ending → List Char → List UInt8 → Prop where
  | full {e : Ending} {t : List Char} {bs : List UInt8} :
      Groups e t bs → bs.length = 16 → Address e t bs
  | gap {e' e : Ending} {l r : List Char} {lb rb : List UInt8} :
      Side e' l lb → e' ≠ .quad → Side e r rb → lb.length + rb.length ≤ 14 →
        Address e (l ++ ':' :: ':' :: r)
          (lb ++ List.replicate (16 - (lb.length + rb.length)) 0 ++ rb)

/-! ## Dotted quads -/

theorem putOctet_eq_toDigits (o : UInt8) : putOctet o = Nat.toDigits 10 o.toNat := by
  have hall : ∀ n, n < 256 → putOctet (UInt8.ofNat n) = Nat.toDigits 10 n := by
    decide +kernel
  have h := hall o.toNat o.toNat_lt
  rwa [UInt8.ofNat_toNat] at h

theorem inetNtop4_eq_dottedQuad (h : q.length = 4) :
    inetNtop4 q = dottedQuad q := by
  obtain ⟨a, b, c, d, rfl⟩ := exists_four h
  simp [inetNtop4, dottedQuad, putOctet_eq_toDigits, List.intercalate]

theorem length_dottedQuad (h : q.length = 4) :
    7 ≤ (dottedQuad q).length ∧ (dottedQuad q).length ≤ 15 := by
  obtain ⟨a, b, c, d, rfl⟩ := exists_four h
  rw [← inetNtop4_eq_dottedQuad h]
  have ha := length_putOctet a
  have hb := length_putOctet b
  have hc := length_putOctet c
  have hd := length_putOctet d
  simp only [inetNtop4, List.getD_cons_zero, List.getD_cons_succ, List.length_append,
    List.length_cons]
  omega

theorem exists_dottedQuad (h : q.length = 4) :
    ∃ o rest, q.head? = some o ∧ dottedQuad q = putOctet o ++ '.' :: rest := by
  obtain ⟨a, b, c, d, rfl⟩ := exists_four h
  rw [← inetNtop4_eq_dottedQuad h]
  exact ⟨a, _, rfl, rfl⟩

/-! ## The characters of an address -/

/-- A character that occurs in addresses. -/
def IsAddressChar (c : Char) : Prop := isHexDigit c = true ∨ c = ':' ∨ c = '.'

theorem isAddressChar_of_mem_dottedQuad (h : q.length = 4)
    (hc : c ∈ dottedQuad q) : IsAddressChar c := by
  obtain ⟨v, w, x, y, rfl⟩ := exists_four h
  rw [← inetNtop4_eq_dottedQuad h] at hc
  simp only [inetNtop4, List.getD_cons_zero, List.getD_cons_succ, List.mem_append,
    List.mem_cons] at hc
  have hput : ∀ o, c ∈ putOctet o → IsAddressChar c :=
    fun o ho => Or.inl (isHexDigit_of_isDigit (isDigit_of_mem_putOctet ho))
  rcases hc with hc | hc | hc | hc | hc | hc | hc
  · exact hput _ hc
  · exact Or.inr (Or.inr hc)
  · exact hput _ hc
  · exact Or.inr (Or.inr hc)
  · exact hput _ hc
  · exact Or.inr (Or.inr hc)
  · exact hput _ hc

theorem Groups.isAddressChar (h : Groups e t bs) (hc : c ∈ t) : IsAddressChar c := by
  induction h with
  | group hg => exact Or.inl (hg.hex c hc)
  | quad hq => exact isAddressChar_of_mem_dottedQuad hq hc
  | cons hg _ ih =>
      rw [List.mem_append, List.mem_cons] at hc
      rcases hc with hc | hc | hc
      · exact Or.inl (hg.hex c hc)
      · exact Or.inr (Or.inl hc)
      · exact ih hc

theorem Side.isAddressChar (h : Side e t bs) (hc : c ∈ t) : IsAddressChar c := by
  cases h with
  | nil => simp at hc
  | groups h => exact h.isAddressChar hc

theorem Address.isAddressChar (h : Address e t bs) (hc : c ∈ t) : IsAddressChar c := by
  cases h with
  | full h _ => exact h.isAddressChar hc
  | gap hl _ hr _ =>
      rw [List.mem_append, List.mem_cons, List.mem_cons] at hc
      rcases hc with hc | hc | hc | hc
      · exact hl.isAddressChar hc
      · exact Or.inr (Or.inl hc)
      · exact Or.inr (Or.inl hc)
      · exact hr.isAddressChar hc

theorem length_groupBytes (g : List Char) : (groupBytes g).length = 2 := rfl

theorem Groups.ne_nil (h : Groups e t bs) :
    t ≠ [] := by
  cases h with
  | group hg => exact List.length_pos_iff.mp hg.pos
  | quad hq => exact List.length_pos_iff.mp (by have := (length_dottedQuad hq).1; omega)
  | cons _ _ => simp

/-! ## The longest address -/

theorem length_group_le
    (h : Groups e t bs) (hquad : e ≠ .quad) : 2 * (t.length + 1) ≤ 5 * bs.length := by
  induction h with
  | group hg =>
      have := hg.le_four
      rw [length_groupBytes]
      omega
  | quad _ => exact absurd rfl hquad
  | cons hg _ ih =>
      have := hg.le_four
      have := ih hquad
      rw [List.length_append, List.length_append, List.length_cons, length_groupBytes]
      omega

theorem Groups.length_le (h : Groups e t bs) : 2 * (t.length + 1) ≤ 5 * bs.length + 12 := by
  induction h with
  | group hg =>
      have := length_group_le (.group hg) (by decide)
      omega
  | quad hq =>
      have := (length_dottedQuad hq).2
      omega
  | cons hg _ ih =>
      have := hg.le_four
      rw [List.length_append, List.length_append, List.length_cons, length_groupBytes]
      omega

/-- The longest address has six groups of four digits and a quad of four octets of
three digits. -/
theorem Address.length_le (h : Address e t bs) : t.length ≤ maxIpv6StrLen := by
  rw [maxIpv6StrLen]
  cases h with
  | full h hlen =>
      have := h.length_le
      omega
  | @gap e' e l r lb rb hl hquad hr hroom =>
      have hleft : 2 * l.length ≤ 5 * lb.length := by
        cases hl with
        | nil => simp
        | groups hl => have := length_group_le hl hquad; omega
      have hright : 2 * r.length ≤ 5 * rb.length + 12 := by
        cases hr with
        | nil => simp
        | groups hr => have := hr.length_le; omega
      rw [List.length_append, List.length_cons, List.length_cons]
      omega

/-! ## How an address ends -/

/-- The last character tells an ending group or quad from an ending gap, and a dot
tells the quad from the group. -/
structure EndsAs (e : Ending) (t : List Char) : Prop where
  dot : '.' ∈ t ↔ e = .quad
  colon : t.getLast? = some ':' ↔ e = .gap

theorem getLast?_hex_ne {g : List Char} (h : ∀ c ∈ g, isHexDigit c = true) :
    g.getLast? ≠ some ':' := by
  intro hlast
  exact absurd (h ':' (List.mem_of_getLast? hlast)) (by decide)

theorem Groups.endsAs (h : Groups e t bs) :
    EndsAs e t := by
  induction h with
  | @group g hg =>
      refine ⟨iff_of_false ?_ (by simp), iff_of_false (getLast?_hex_ne hg.hex) (by simp)⟩
      intro hdot
      exact absurd (hg.hex '.' hdot) (by decide)
  | @quad q hq =>
      obtain ⟨v, w, x, y, rfl⟩ := exists_four hq
      rw [← inetNtop4_eq_dottedQuad hq]
      refine ⟨iff_of_true (by simp [inetNtop4]) rfl, iff_of_false ?_ (by simp)⟩
      have hsplit : inetNtop4 [v, w, x, y] =
          (putOctet v ++ '.' :: (putOctet w ++ '.' :: (putOctet x ++ ['.']))) ++
            putOctet y := by simp [inetNtop4]
      rw [hsplit, List.getLast?_append_of_ne_nil _ (putOctet_ne_nil y)]
      exact getLast?_hex_ne fun c hc => isHexDigit_of_isDigit (isDigit_of_mem_putOctet hc)
  | @cons g e t bs hg ht ih =>
      have hnot : '.' ∉ g := fun hdot => absurd (hg.hex '.' hdot) (by decide)
      have hlast : (g ++ ':' :: t).getLast? = t.getLast? := by
        rw [List.append_cons, List.getLast?_append_of_ne_nil _ ht.ne_nil]
      refine ⟨?_, ?_⟩
      · rw [List.mem_append, List.mem_cons, ← ih.dot]
        simp [hnot]
      · rw [hlast, ih.colon]

theorem Address.endsAs (h : Address e t bs) : EndsAs e t := by
  cases h with
  | full h _ => exact h.endsAs
  | @gap e' e l r lb rb hl hquad hr _ =>
      have hdotl : '.' ∉ l := by
        cases hl with
        | nil => simp
        | groups hl => exact fun hdot => hquad (hl.endsAs.dot.mp hdot)
      cases hr with
      | nil =>
          refine ⟨iff_of_false ?_ (by simp), iff_of_true (by simp) rfl⟩
          simp [hdotl]
      | groups hr =>
          have hlast : (l ++ ':' :: ':' :: r).getLast? = r.getLast? := by
            rw [show l ++ ':' :: ':' :: r = (l ++ [':', ':']) ++ r by simp,
              List.getLast?_append_of_ne_nil _ hr.ne_nil]
          refine ⟨?_, ?_⟩
          · rw [List.mem_append, List.mem_cons, List.mem_cons, ← hr.endsAs.dot]
            simp [hdotl]
          · rw [hlast, hr.endsAs.colon]

theorem EndsAs.unique {e e' : Ending} (h : EndsAs e t) (h' : EndsAs e' t) :
    e = e' := by
  have hdot : e = .quad ↔ e' = .quad := h.dot.symm.trans h'.dot
  have hcolon : e = .gap ↔ e' = .gap := h.colon.symm.trans h'.colon
  cases e <;> cases e' <;> simp_all

end Webpp.Ip
