import Webpp.Ip.AddressText

/-!
# `inet_ntop6`

The printer of IPv6 addresses. It writes the eight groups to the table `hexa`
without their leading zeros, finds the last of the longest runs of zero groups on
the way, and prints the groups with `::` in place of that run. An address mapped
from IPv4 gets a dotted quad.

The invariant of the loop is that the runs it has found are runs of zeros of the
address (`RunsOf`); what is printed is then a text for the address.
-/

namespace Webpp.Ip

open Webpp.Text

/-- The characters of one group in `hexa`, up to the NUL. -/
def hexGroup (low high : UInt8) : List Char :=
  let d1 := low.toNat / 16
  let d2 := low.toNat % 16
  let d3 := high.toNat / 16
  let d4 := high.toNat % 16
  -- `skip` before the second and before the third digit
  let skip2 := d1 = 0
  let skip3 := d1 = 0 ∧ d2 = 0
  (if d1 ≠ 0 then [hexChars d1] else []) ++
    ((if ¬ skip2 ∨ d2 ≠ 0 then [hexChars d2] else []) ++
      ((if ¬ skip3 ∨ d3 ≠ 0 then [hexChars d3] else []) ++ [hexChars d4]))

/-- The variables of the loop over the groups; `longestIndex` is -1 where it is
`none` here. -/
structure Ntop6State where
  hexa : List (List Char)
  i : ℕ
  j : ℕ
  longestCount : ℕ
  longestIndex : Option ℕ

/-- One group. -/
def Ntop6State.step (q : Ntop6State) (low high : UInt8) : Ntop6State :=
  let q := { q with hexa := q.hexa ++ [hexGroup low high], i := q.i + 1 }
  if low = 0 ∧ high = 0 then
    let q := { q with j := q.j + 1 }
    if q.j ≥ q.longestCount then
      { q with longestIndex := some (q.i - q.j), longestCount := q.j }
    else q
  else { q with j := 0 }

def ntop6Loop : List UInt8 → Ntop6State → Ntop6State
  | low :: high :: src, q => ntop6Loop src (q.step low high)
  | _, q => q

/-- The groups from the index on, each but the eighth with a colon. -/
def putGroups : (index : ℕ) → List (List Char) → List Char
  | _, [] => []
  | index, cell :: cells =>
      cell ++ ((if index ≠ 7 then [':'] else []) ++ putGroups (index + 1) cells)

/-- The characters `inet_ntop6` writes before the NUL. -/
def inetNtop6 (src : List UInt8) : List Char :=
  let q := ntop6Loop src ⟨[], 0, 0, 0, none⟩
  match q.longestIndex with
  | none => ((q.hexa.take 7).flatMap fun cell => cell ++ [':']) ++ q.hexa.getD 7 []
  | some longestIndex =>
      if longestIndex = 0 ∧ q.longestCount = 5 ∧ src.getD 10 0 = 0xFF ∧
          src.getD 11 0 = 0xFF then
        "::ffff:".toList ++ inetNtop4 (src.drop 12)
      else
        (if longestIndex = 0 then [':'] else []) ++
          (putGroups 0 (q.hexa.take longestIndex) ++
            ':' :: putGroups (longestIndex + q.longestCount)
              (q.hexa.drop (longestIndex + q.longestCount)))

/-! ## One group -/

theorem isGroup_hexGroup (low high : UInt8) : IsGroup (hexGroup low high) := by
  have hlow := low.toNat_lt
  have hhigh := high.toNat_lt
  refine ⟨?_, ?_, ?_⟩
  · simp only [hexGroup, List.length_append, List.length_singleton]
    omega
  · simp only [hexGroup, List.length_append, List.length_singleton]
    split_ifs <;> simp
  · intro c hc
    simp only [hexGroup, List.mem_append, List.mem_singleton] at hc
    have hdigit : ∀ (P : Prop) [Decidable P] (d : ℕ), d < 16 →
        c ∈ (if P then [hexChars d] else []) → isHexDigit c = true := by
      intro P _ d hd hmem
      split_ifs at hmem
      · rw [List.mem_singleton.mp hmem, isHexDigit_hexChars hd]
      · simp at hmem
    rcases hc with hc | hc | hc | hc
    · exact hdigit _ _ (by omega) hc
    · exact hdigit _ _ (by omega) hc
    · exact hdigit _ _ (by omega) hc
    · rw [hc, isHexDigit_hexChars (by omega)]

theorem hexValueFrom_append (v : ℕ) (g g' : List Char) :
    hexValueFrom v (g ++ g') = hexValueFrom (hexValueFrom v g) g' := List.foldl_append

theorem hexValueFrom_hexChars (v : ℕ) {d : ℕ} (h : d < 16) :
    hexValueFrom v [hexChars d] = v * 16 + d := by
  rw [hexValueFrom, List.foldl_cons, hexDigitSafe_hexChars h]
  rfl

theorem hexValueFrom_skip (v : ℕ) {d : ℕ} (h : d < 16) (P : Prop) [Decidable P]
    (hP : ¬ P → v = 0 ∧ d = 0) :
    hexValueFrom v (if P then [hexChars d] else []) = v * 16 + d := by
  by_cases hp : P
  · rw [if_pos hp, hexValueFrom_hexChars v h]
  · rw [if_neg hp, (hP hp).1, (hP hp).2]
    rfl

theorem groupBytes_hexGroup (low high : UInt8) : groupBytes (hexGroup low high) = [low, high] := by
  have hlow := low.toNat_lt
  have hhigh := high.toNat_lt
  have hvalue : hexValueFrom 0 (hexGroup low high) = low.toNat * 256 + high.toNat := by
    rw [hexGroup, hexValueFrom_append, hexValueFrom_append, hexValueFrom_append,
      hexValueFrom_skip 0 (by omega) _ (by omega),
      hexValueFrom_skip (0 * 16 + low.toNat / 16) (by omega) _ (by omega),
      hexValueFrom_skip ((0 * 16 + low.toNat / 16) * 16 + low.toNat % 16) (by omega) _ (by omega),
      hexValueFrom_hexChars _ (by omega)]
    omega
  rw [groupBytes, hvalue, show (low.toNat * 256 + high.toNat) / 256 = low.toNat by omega,
    show (low.toNat * 256 + high.toNat) % 256 = high.toNat by omega, UInt8.ofNat_toNat,
    UInt8.ofNat_toNat]

/-! ## The loop -/

/-- The groups of some bytes. -/
def cellsOf : List UInt8 → List (List Char)
  | low :: high :: src => hexGroup low high :: cellsOf src
  | _ => []

theorem length_cellsOf (bs : List UInt8) : (cellsOf bs).length = bs.length / 2 := by
  induction bs using cellsOf.induct with
  | case1 low high src ih =>
      rw [cellsOf, List.length_cons, ih, List.length_cons, List.length_cons]
      omega
  | case2 bs h =>
      match bs, h with
      | [], _ => rfl
      | [_], _ => simp [cellsOf]
      | a :: b :: src, h => exact absurd rfl (h a b src)

theorem cellsOf_append {as : List UInt8} (bs : List UInt8) (h : as.length % 2 = 0) :
    cellsOf (as ++ bs) = cellsOf as ++ cellsOf bs := by
  induction as using cellsOf.induct with
  | case1 low high src ih =>
      rw [List.length_cons, List.length_cons] at h
      rw [List.cons_append, List.cons_append, cellsOf, cellsOf, ih (by omega), List.cons_append]
  | case2 as h' =>
      match as, h' with
      | [], _ => rfl
      | [_], _ => simp at h
      | a :: b :: src, h' => exact absurd rfl (h' a b src)

/-- After the bytes `done`: their groups are in `hexa`, the last `j` groups are zero,
and so are `longestCount` groups from `longestIndex` on. -/
structure RunsOf (q : Ntop6State) (done : List UInt8) : Prop where
  hexa : q.hexa = cellsOf done
  length : done.length = 2 * q.i
  current : ∃ a, done = a ++ List.replicate (2 * q.j) 0
  longest : ∀ k, q.longestIndex = some k → 1 ≤ q.longestCount ∧ ∃ a b,
    a.length = 2 * k ∧ done = a ++ List.replicate (2 * q.longestCount) 0 ++ b

theorem RunsOf.step {q : Ntop6State} {done : List UInt8} (h : RunsOf q done)
    (low high : UInt8) : RunsOf (q.step low high) (done ++ [low, high]) := by
  have hcells : q.hexa ++ [hexGroup low high] = cellsOf (done ++ [low, high]) := by
    rw [h.hexa, cellsOf_append _ (by rw [h.length]; omega)]
    rfl
  have hlength : (done ++ [low, high]).length = 2 * (q.i + 1) := by
    rw [List.length_append, h.length]
    rfl
  have hkeep : ∀ k, q.longestIndex = some k → 1 ≤ q.longestCount ∧ ∃ a b,
      a.length = 2 * k ∧
        done ++ [low, high] = a ++ List.replicate (2 * q.longestCount) 0 ++ b := by
    intro k hk
    obtain ⟨hpos, a, b, ha, hab⟩ := h.longest k hk
    exact ⟨hpos, a, b ++ [low, high], ha, by rw [hab, List.append_assoc]⟩
  unfold Ntop6State.step
  simp only
  split_ifs with hzero hlong
  · -- the current run becomes the longest one
    obtain ⟨a, ha⟩ := h.current
    have hrun : done ++ [low, high] = a ++ List.replicate (2 * (q.j + 1)) 0 := by
      rw [ha, hzero.1, hzero.2, show 2 * (q.j + 1) = 2 * q.j + 2 by omega, List.replicate_add]
      simp [List.replicate_succ]
    refine ⟨hcells, hlength, ⟨a, hrun⟩, ?_⟩
    intro k hk
    refine ⟨by simp, a, [], ?_, by simpa using hrun⟩
    have hlen := congrArg List.length ha
    rw [h.length, List.length_append, List.length_replicate] at hlen
    simp only [Option.some.injEq] at hk
    omega
  · obtain ⟨a, ha⟩ := h.current
    refine ⟨hcells, hlength, ⟨a, ?_⟩, hkeep⟩
    rw [ha, hzero.1, hzero.2, show 2 * (q.j + 1) = 2 * q.j + 2 by omega, List.replicate_add]
    simp [List.replicate_succ]
  · exact ⟨hcells, hlength, ⟨done ++ [low, high], by simp⟩, hkeep⟩

theorem RunsOf.loop {q : Ntop6State} {done : List UInt8} (h : RunsOf q done)
    (src : List UInt8) (heven : src.length % 2 = 0) :
    RunsOf (ntop6Loop src q) (done ++ src) := by
  induction src using cellsOf.induct generalizing q done with
  | case1 low high src ih =>
      rw [List.length_cons, List.length_cons] at heven
      rw [ntop6Loop, List.append_cons, List.append_cons]
      have hstep := ih (h.step low high) (by omega)
      simpa using hstep
  | case2 src h' =>
      match src, h' with
      | [], _ => simpa [ntop6Loop] using h
      | [_], _ => simp at heven
      | a :: b :: src, h' => exact absurd rfl (h' a b src)

theorem runsOf_start : RunsOf ⟨[], 0, 0, 0, none⟩ [] :=
  ⟨rfl, rfl, ⟨[], rfl⟩, by simp⟩

/-! ## What is printed -/

theorem groups_putGroups {bs : List UInt8} (heven : bs.length % 2 = 0) (hne : bs ≠ [])
    {index : ℕ} (hindex : 2 * index + bs.length = 16) :
    Groups .group (putGroups index (cellsOf bs)) bs := by
  induction bs using cellsOf.induct generalizing index with
  | case1 low high src ih =>
      rw [List.length_cons, List.length_cons] at heven hindex
      have hbytes := groupBytes_hexGroup low high
      rw [cellsOf, putGroups]
      by_cases hsrc : src = []
      · subst hsrc
        rw [List.length_nil] at hindex
        rw [if_neg (by omega), cellsOf, putGroups, List.append_nil, List.append_nil, ← hbytes]
        · exact .group (isGroup_hexGroup low high)
        · simp
      · have hpos := List.length_pos_iff.mpr hsrc
        rw [if_pos (by omega)]
        have hcons := Groups.cons (isGroup_hexGroup low high)
          (@ih (by omega) hsrc (index + 1) (by omega))
        rw [hbytes] at hcons
        exact hcons
  | case2 bs h =>
      match bs, h with
      | [], _ => exact absurd rfl hne
      | [_], _ => simp at heven
      | a :: b :: src, h => exact absurd rfl (h a b src)

theorem exists_putGroups {bs : List UInt8} (heven : bs.length % 2 = 0) (hne : bs ≠ [])
    {index : ℕ} (hindex : 2 * index + bs.length ≤ 14) :
    ∃ l, putGroups index (cellsOf bs) = l ++ [':'] ∧ Groups .group l bs := by
  induction bs using cellsOf.induct generalizing index with
  | case1 low high src ih =>
      rw [List.length_cons, List.length_cons] at heven hindex
      have hbytes := groupBytes_hexGroup low high
      rw [cellsOf, putGroups, if_pos (by omega)]
      by_cases hsrc : src = []
      · subst hsrc
        refine ⟨hexGroup low high, by simp [cellsOf, putGroups], ?_⟩
        rw [← hbytes]
        exact .group (isGroup_hexGroup low high)
      · obtain ⟨l, hl, hgroups⟩ := @ih (by omega) hsrc (index + 1) (by omega)
        have hcons := Groups.cons (isGroup_hexGroup low high) hgroups
        rw [hbytes] at hcons
        exact ⟨hexGroup low high ++ ':' :: l, by simp [hl], hcons⟩
  | case2 bs h =>
      match bs, h with
      | [], _ => exact absurd rfl hne
      | [_], _ => simp at heven
      | a :: b :: src, h => exact absurd rfl (h a b src)

/-- Without a run all groups are printed, the eighth without a colon. -/
theorem putGroups_eight {cells : List (List Char)} (h : cells.length = 8) :
    putGroups 0 cells =
      ((cells.take 7).flatMap fun cell => cell ++ [':']) ++ cells.getD 7 [] := by
  match cells, h with
  | [a, b, c, d, e, f, g, h], _ => simp [putGroups]

/-- `::` in place of a run of zeros makes an address. -/
theorem address_of_run {a b : List UInt8} {count : ℕ} (hpos : 1 ≤ count)
    (ha : a.length % 2 = 0) (hb : b.length % 2 = 0)
    (hlen : (a ++ List.replicate (2 * count) 0 ++ b).length = 16) :
    ∃ e, Address e
      ((if a.length / 2 = 0 then [':'] else []) ++
        (putGroups 0 (cellsOf a) ++
          ':' :: putGroups (a.length / 2 + count) (cellsOf b)))
      (a ++ List.replicate (2 * count) 0 ++ b) := by
  rw [List.length_append, List.length_append, List.length_replicate] at hlen
  have hcount : 2 * count = 16 - (a.length + b.length) := by omega
  have hroom : a.length + b.length ≤ 14 := by omega
  have hright : ∃ e, Side e (putGroups (a.length / 2 + count) (cellsOf b)) b := by
    by_cases hnil : b = []
    · subst hnil
      exact ⟨.gap, by simpa [cellsOf, putGroups] using Side.nil⟩
    · exact ⟨.group, .groups (groups_putGroups hb hnil (by omega))⟩
  obtain ⟨e, hright⟩ := hright
  refine ⟨e, ?_⟩
  rw [hcount]
  by_cases hnil : a = []
  · subst hnil
    have haddr := Address.gap .nil (by decide) hright hroom
    simpa [cellsOf, putGroups] using haddr
  · have hpos' := List.length_pos_iff.mpr hnil
    obtain ⟨l, hl, hgroups⟩ := @exists_putGroups a ha hnil 0 (by omega)
    have haddr := Address.gap (.groups hgroups) (by decide) hright hroom
    rw [if_neg (by omega), hl]
    simpa using haddr

theorem address_mapped {q : List UInt8} (hq : q.length = 4) :
    Address .quad ("::ffff:".toList ++ inetNtop4 q)
      (List.replicate 10 0 ++ 0xFF :: 0xFF :: q) := by
  have hgroup : IsGroup "ffff".toList := ⟨by decide, by decide, by decide⟩
  have hbytes : groupBytes "ffff".toList = [0xFF, 0xFF] := by decide
  have hright := Groups.cons hgroup (.quad hq)
  rw [hbytes] at hright
  have haddr := Address.gap .nil (by decide) (.groups hright) (by simp [hq])
  rw [inetNtop4_eq_dottedQuad hq]
  simpa [hq] using haddr

/-- `inet_ntop6` prints an address text of its bytes. -/
theorem address_inetNtop6 {src : List UInt8} (hsrc : src.length = 16) :
    ∃ e, Address e (inetNtop6 src) src := by
  have hruns := runsOf_start.loop src (by omega)
  rw [List.nil_append] at hruns
  unfold inetNtop6
  generalize ntop6Loop src ⟨[], 0, 0, 0, none⟩ = q at hruns
  have hcells : q.hexa.length = 8 := by rw [hruns.hexa, length_cellsOf, hsrc]
  cases hindex : q.longestIndex with
  | none =>
      refine ⟨.group, .full ?_ hsrc⟩
      simp only [hindex]
      rw [← putGroups_eight hcells, hruns.hexa]
      exact groups_putGroups (by omega) (by intro h; simp [h] at hsrc) (by omega)
  | some k =>
      obtain ⟨hpos, a, b, ha, hab⟩ := hruns.longest k hindex
      have hlen := hsrc
      rw [hab, List.length_append, List.length_append, List.length_replicate] at hlen
      simp only [hindex]
      split_ifs with hmapped hzero
      · -- `::ffff:` and a quad
        obtain ⟨rfl, hcount, h10, h11⟩ := hmapped
        have hnil : a = [] := List.length_eq_zero_iff.mp (by omega)
        have hb : b.length = 6 := by omega
        rw [hnil, hcount, List.nil_append] at hab
        match b, hb with
        | [x, y, w, z, u, v], _ =>
            rw [hab] at h10 h11 ⊢
            have hx : x = 0xFF := h10
            have hy : y = 0xFF := h11
            rw [hx, hy]
            exact ⟨.quad, address_mapped (q := [w, z, u, v]) rfl⟩
      all_goals
        have hk : a.length / 2 = k := by omega
        have hleft : q.hexa.take k = cellsOf a := by
          rw [hruns.hexa, hab, List.append_assoc, cellsOf_append _ (by omega),
            List.take_left' (by rw [length_cellsOf, hk])]
        have hright : q.hexa.drop (k + q.longestCount) = cellsOf b := by
          rw [hruns.hexa, hab, cellsOf_append _ (by simp; omega), List.drop_left']
          rw [length_cellsOf, List.length_append, List.length_replicate]
          omega
        obtain ⟨e, haddr⟩ := address_of_run hpos (by omega) (by omega) (hab ▸ hsrc)
        rw [← hab, hk] at haddr
        rw [hleft, hright]
      · rw [if_pos hzero] at haddr
        exact ⟨e, haddr⟩
      · rw [if_neg hzero] at haddr
        exact ⟨e, haddr⟩

end Webpp.Ip
