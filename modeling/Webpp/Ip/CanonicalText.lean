import Webpp.Foundation.LongestRun
import Webpp.Ip.InetNtop6

/-!
# Canonical texts of IPv6 addresses

The text an operating system prints for an address: the groups are hexadecimal numerals in lower
case, the first of the longest runs of at least two zero groups is `::`, and only a mapped address
ends with a dotted quad.

The loop of `inet_ntop6` takes a run that is as long as the longest one so far, and a single group
is a run to it. It ends with the last of the longest runs, so the text is canonical where this is
the first one too.
-/

namespace Webpp.Ip

open Webpp.Text
open LongestRun

variable {src : List UInt8} {q : Ntop6State}

/-! ## The canonical text -/

/-- The groups of an address, as numbers. -/
def groupValues : List UInt8 → List ℕ
  | low :: high :: src => (low.toNat * 256 + high.toNat) :: groupValues src
  | _ => []

/-- Numerals with colons between them. -/
def groupsText (gs : List ℕ) : List Char := List.intercalate [':'] (gs.map (Nat.toDigits 16))

/-- An address in `::ffff:0:0/96`. -/
def Mapped (src : List UInt8) : Prop :=
  ∃ q : List UInt8, q.length = 4 ∧ src = List.replicate 10 0 ++ 0xFF :: 0xFF :: q

/-- The canonical text of an address. -/
inductive Canonical : List UInt8 → List Char → Prop where
  | mapped {q : List UInt8} : q.length = 4 →
      Canonical (List.replicate 10 0 ++ 0xFF :: 0xFF :: q) ("::ffff:".toList ++ dottedQuad q)
  | run {src : List UInt8} {k n : ℕ} : ¬ Mapped src →
      FirstLongest (· = 0) (groupValues src) k n → 2 ≤ n →
      Canonical src (groupsText ((groupValues src).take k) ++
        ':' :: ':' :: groupsText ((groupValues src).drop (k + n)))
  | plain {src : List UInt8} : ¬ Mapped src →
      (∀ k n, IsRun (· = 0) (groupValues src) k n → n < 2) →
      Canonical src (groupsText (groupValues src))

/-! ## One group -/

theorem toDigits_hexChars : ∀ d < 16, Nat.toDigits 16 d = [hexChars d] := by decide

theorem toDigits_step {n d : ℕ} (hn : 0 < n) (hd : d < 16) :
    Nat.toDigits 16 (16 * n + d) = Nat.toDigits 16 n ++ [hexChars d] := by
  rw [← Nat.toDigits_append_toDigits (by decide) hn hd, toDigits_hexChars d hd]

theorem hexGroup_eq_toDigits (low high : UInt8) :
    hexGroup low high = Nat.toDigits 16 (low.toNat * 256 + high.toNat) := by
  have hlow := low.toNat_lt
  have hhigh := high.toNat_lt
  have hsplit : low.toNat * 256 + high.toNat =
      16 * (16 * (16 * (low.toNat / 16) + low.toNat % 16) + high.toNat / 16) +
        high.toNat % 16 := by omega
  unfold hexGroup
  rw [hsplit]
  have h₁ : low.toNat / 16 < 16 := by omega
  have h₂ : low.toNat % 16 < 16 := by omega
  have h₃ : high.toNat / 16 < 16 := by omega
  have h₄ : high.toNat % 16 < 16 := by omega
  generalize low.toNat / 16 = d₁ at *
  generalize low.toNat % 16 = d₂ at *
  generalize high.toNat / 16 = d₃ at *
  generalize high.toNat % 16 = d₄ at *
  -- the first digit that is not zero
  by_cases hd₁ : d₁ = 0
  · by_cases hd₂ : d₂ = 0
    · by_cases hd₃ : d₃ = 0
      · simp [hd₁, hd₂, hd₃, toDigits_hexChars d₄ h₄]
      · rw [show 16 * (16 * d₁ + d₂) + d₃ = d₃ by omega, toDigits_step (by omega) h₄,
          toDigits_hexChars d₃ h₃]
        simp [hd₁, hd₂, hd₃]
    · rw [show 16 * d₁ + d₂ = d₂ by omega, toDigits_step (by omega) h₄,
        toDigits_step (by omega) h₃, toDigits_hexChars d₂ h₂]
      simp [hd₁, hd₂]
  · rw [toDigits_step (by omega) h₄, toDigits_step (by omega) h₃, toDigits_step (by omega) h₂,
      toDigits_hexChars d₁ h₁]
    simp [hd₁]

theorem short_of_no_pair
    (h : ∀ low high rest, src = low :: high :: rest → False) : src = [] ∨ ∃ b, src = [b] := by
  cases src with
  | nil => exact Or.inl rfl
  | cons low rest =>
    cases rest with
    | nil => exact Or.inr ⟨low, rfl⟩
    | cons high rest => exact absurd rfl (h low high rest)

theorem cellsOf_eq (src : List UInt8) : cellsOf src = (groupValues src).map (Nat.toDigits 16) := by
  induction src using groupValues.induct with
  | case1 low high src ih => rw [cellsOf, groupValues, List.map_cons, ih, hexGroup_eq_toDigits]
  | case2 src h =>
    obtain rfl | ⟨b, rfl⟩ := short_of_no_pair h
    · rfl
    · rfl

theorem isGroup_of_mem_cellsOf {cell : List Char} (h : cell ∈ cellsOf src) :
    IsGroup cell := by
  induction src using cellsOf.induct with
  | case1 low high src ih =>
    rw [cellsOf, List.mem_cons] at h
    obtain rfl | h := h
    · exact isGroup_hexGroup low high
    · exact ih h
  | case2 src h' =>
    obtain rfl | ⟨b, rfl⟩ := short_of_no_pair h'
    · simp [cellsOf] at h
    · simp [cellsOf] at h

/-! ## The loop -/

/-- After some groups: the current run is the one at the end, and the longest one the last of the
longest runs. -/
structure FindsRuns (q : Ntop6State) (gs : List ℕ) : Prop where
  i : q.i = gs.length
  current : EndRun (· = 0) gs q.j
  none : q.longestIndex = none → q.longestCount = 0 ∧ ∀ g ∈ gs, g ≠ 0
  some : ∀ k, q.longestIndex = some k → LastLongest (· = 0) gs k q.longestCount

theorem FindsRuns.le_longestCount {gs : List ℕ} (h : FindsRuns q gs)
    {start count : ℕ} (hpos : 1 ≤ count) (hrun : IsRun (· = 0) gs start count) :
    count ≤ q.longestCount := by
  cases hindex : q.longestIndex with
  | none =>
    obtain ⟨g, hg, hzero⟩ := hrun start le_rfl (by omega)
    exact absurd hzero ((h.none hindex).2 g (List.mem_of_getElem? hg))
  | some k => exact ((h.some k hindex).longest start count hpos hrun).1

theorem FindsRuns.step {gs : List ℕ} (h : FindsRuns q gs) (low high : UInt8) :
    FindsRuns (q.step low high) (gs ++ [low.toNat * 256 + high.toNat]) := by
  have hvalue : low = 0 ∧ high = 0 ↔ low.toNat * 256 + high.toNat = 0 := by
    rw [← UInt8.toNat_inj, ← UInt8.toNat_inj, UInt8.toNat_zero]
    omega
  have hi : q.i + 1 = (gs ++ [low.toNat * 256 + high.toNat]).length := by
    rw [h.i, List.length_append]
    rfl
  unfold Ntop6State.step
  simp only
  split_ifs with hzero hlong
  · have hx := hvalue.mp hzero
    have hlast := h.current.lastLongest hx fun start count hpos hrun =>
      (h.le_longestCount hpos hrun).trans hlong
    refine ⟨hi, h.current.concat hx, by simp, ?_⟩
    intro k hk
    rw [Option.some_inj] at hk
    rw [← hk, h.i, Nat.add_sub_add_right]
    exact hlast
  · have hx := hvalue.mp hzero
    refine ⟨hi, h.current.concat hx, ?_, ?_⟩
    · intro hnone
      have hcount := (h.none hnone).1
      omega
    · intro k hk
      exact (h.some k hk).concat h.current fun _ => Nat.lt_of_not_le hlong
  · have hx : ¬ low.toNat * 256 + high.toNat = 0 := fun hx => hzero (hvalue.mpr hx)
    refine ⟨hi, endRun_concat_of_not gs hx, ?_, ?_⟩
    · intro hnone
      refine ⟨(h.none hnone).1, fun g hg => ?_⟩
      rw [List.mem_append, List.mem_singleton] at hg
      obtain hg | rfl := hg
      · exact (h.none hnone).2 g hg
      · exact hx
    · intro k hk
      exact (h.some k hk).concat h.current fun hx' => absurd hx' hx

theorem FindsRuns.loop {gs : List ℕ} (h : FindsRuns q gs) (src : List UInt8) :
    FindsRuns (ntop6Loop src q) (gs ++ groupValues src) := by
  induction src using groupValues.induct generalizing q gs with
  | case1 low high src ih =>
    rw [ntop6Loop, groupValues, List.append_cons]
    exact ih (h.step low high)
  | case2 src h' =>
    obtain rfl | ⟨b, rfl⟩ := short_of_no_pair h'
    · simpa [ntop6Loop, groupValues] using h
    · simpa [ntop6Loop, groupValues] using h

theorem findsRuns_start : FindsRuns ⟨[], 0, 0, 0, none⟩ [] :=
  ⟨rfl, endRun_nil _, fun _ => ⟨rfl, by simp⟩, by simp⟩

/-! ## What is printed -/

section Cells

variable {cells : List (List Char)}

/-- The first cells, each with its colon. -/
def front (cells : List (List Char)) (k : ℕ) : List Char :=
  (cells.take k).flatMap fun cell => cell ++ [':']

theorem putGroups_eq_front {index : ℕ} (h : index + cells.length ≤ 7) :
    putGroups index cells = cells.flatMap fun cell => cell ++ [':'] := by
  induction cells generalizing index with
  | nil => rfl
  | cons cell cells ih =>
    rw [List.length_cons] at h
    rw [putGroups, if_pos (by omega), ih (by omega), List.flatMap_cons, List.append_assoc]

theorem putGroups_eq_intercalate {index : ℕ} (h : index + cells.length = 8) :
    putGroups index cells = List.intercalate [':'] cells := by
  induction cells generalizing index with
  | nil => rfl
  | cons cell cells ih =>
    rw [List.length_cons] at h
    cases cells with
    | nil =>
      rw [putGroups, if_neg (by simp at h; omega), putGroups, List.intercalate_singleton]
      simp
    | cons cell' cells =>
      rw [List.length_cons] at h
      rw [putGroups, if_pos (by omega), ih (by rw [List.length_cons]; omega),
        List.intercalate_cons_cons, List.append_assoc]

theorem intercalate_append (front : List (List Char)) {rest : List (List Char)} (h : rest ≠ []) :
    List.intercalate [':'] (front ++ rest) =
      (front.flatMap fun cell => cell ++ [':']) ++ List.intercalate [':'] rest := by
  induction front with
  | nil => rfl
  | cons cell front ih =>
    rw [List.cons_append, List.intercalate_cons_of_ne_nil (by simp [h]), ih, List.flatMap_cons]
    simp

theorem flatMap_eq_intercalate (h : cells ≠ []) :
    (cells.flatMap fun cell => cell ++ [':']) = List.intercalate [':'] cells ++ [':'] := by
  induction cells with
  | nil => exact absurd rfl h
  | cons cell cells ih =>
    cases cells with
    | nil => simp
    | cons cell' cells =>
      rw [List.flatMap_cons, ih (List.cons_ne_nil _ _), List.intercalate_cons_cons]
      simp

/-- A text with `::` in place of some groups. -/
def compressed (cells : List (List Char)) (k n : ℕ) : List Char :=
  List.intercalate [':'] (cells.take k) ++
    ':' :: ':' :: List.intercalate [':'] (cells.drop (k + n))

theorem compressed_eq_front (cells : List (List Char)) (k n : ℕ) :
    compressed cells k n =
      (if cells.take k = [] then [':'] else []) ++
        (front cells k ++ ':' :: List.intercalate [':'] (cells.drop (k + n))) := by
  by_cases h : cells.take k = []
  · rw [compressed, front, if_pos h, h]
    rfl
  · rw [compressed, front, if_neg h, flatMap_eq_intercalate h]
    simp

end Cells

/-! ## Mapped addresses -/

theorem length_groupValues (src : List UInt8) : (groupValues src).length = src.length / 2 := by
  rw [← length_cellsOf, cellsOf_eq, List.length_map]

/-- A run of groups in the groups of a mapped address is in front of `ffff`, or behind it. -/
theorem isRun_mapped (h : Mapped src) {start count : ℕ} (hpos : 1 ≤ count)
    (hrun : IsRun (· = 0) (groupValues src) start count) :
    start + count ≤ 5 ∨ 6 ≤ start ∧ count ≤ 2 := by
  obtain ⟨q, hq, rfl⟩ := h
  have hle := hrun.le_length hpos
  rw [length_groupValues, List.length_append, List.length_replicate, List.length_cons,
    List.length_cons, hq] at hle
  by_contra hnot
  obtain ⟨g, hg, hzero⟩ := hrun 5 (by omega) (by omega)
  rw [show g = 65535 from (Option.some_inj.mp hg).symm] at hzero
  exact absurd hzero (by decide)

theorem isRun_five (h : Mapped src) : IsRun (· = 0) (groupValues src) 0 5 := by
  obtain ⟨q, hq, rfl⟩ := h
  intro i _ hi
  refine ⟨0, ?_, rfl⟩
  match i, hi with
  | 0, _ | 1, _ | 2, _ | 3, _ | 4, _ => rfl

theorem longest_mapped (h : Mapped src) :
    FirstLongest (· = 0) (groupValues src) 0 5 ∧ LastLongest (· = 0) (groupValues src) 0 5 := by
  refine ⟨⟨by decide, isRun_five h, ?_⟩, ⟨by decide, isRun_five h, ?_⟩⟩
  all_goals
    intro start count hpos hrun
    have hcases := isRun_mapped h hpos hrun
    omega

theorem mapped_iff (hsrc : src.length = 16) (hrun : IsRun (· = 0) (groupValues src) 0 5) :
    Mapped src ↔ src.getD 10 0 = 0xFF ∧ src.getD 11 0 = 0xFF := by
  constructor
  · rintro ⟨q, -, rfl⟩
    exact ⟨rfl, rfl⟩
  · match src, hsrc with
    | [b₀, b₁, b₂, b₃, b₄, b₅, b₆, b₇, b₈, b₉, b₁₀, b₁₁, b₁₂, b₁₃, b₁₄, b₁₅], _ =>
      rintro ⟨h₁₀, h₁₁⟩
      have hzero : ∀ (i : ℕ) (x y : UInt8), i < 5 →
          (groupValues [b₀, b₁, b₂, b₃, b₄, b₅, b₆, b₇, b₈, b₉, b₁₀, b₁₁, b₁₂, b₁₃, b₁₄, b₁₅])[i]? =
            some (x.toNat * 256 + y.toNat) → x = 0 ∧ y = 0 := by
        intro i x y hi hget
        obtain ⟨g, hg, rfl⟩ := hrun i (by omega) (by omega)
        rw [hget, Option.some_inj] at hg
        rw [← UInt8.toNat_inj, ← UInt8.toNat_inj, UInt8.toNat_zero]
        omega
      obtain ⟨rfl, rfl⟩ := hzero 0 b₀ b₁ (by decide) rfl
      obtain ⟨rfl, rfl⟩ := hzero 1 b₂ b₃ (by decide) rfl
      obtain ⟨rfl, rfl⟩ := hzero 2 b₄ b₅ (by decide) rfl
      obtain ⟨rfl, rfl⟩ := hzero 3 b₆ b₇ (by decide) rfl
      obtain ⟨rfl, rfl⟩ := hzero 4 b₈ b₉ (by decide) rfl
      have hff : b₁₀ = 0xFF := h₁₀
      have hff' : b₁₁ = 0xFF := h₁₁
      rw [hff, hff']
      exact ⟨[b₁₂, b₁₃, b₁₄, b₁₅], rfl, rfl⟩

theorem inetNtop6_eq (hsrc : src.length = 16) :
    (Mapped src ∧ inetNtop6 src = "::ffff:".toList ++ dottedQuad (src.drop 12)) ∨
      ¬ Mapped src ∧
        (((∀ g ∈ groupValues src, g ≠ 0) ∧
            inetNtop6 src = List.intercalate [':'] (cellsOf src)) ∨
          ∃ k n, LastLongest (· = 0) (groupValues src) k n ∧
            inetNtop6 src = compressed (cellsOf src) k n) := by
  have hfinds := findsRuns_start.loop src
  have hhexa := (runsOf_start.loop src (by omega)).hexa
  rw [List.nil_append] at hfinds hhexa
  have hcells : (cellsOf src).length = 8 := by rw [length_cellsOf, hsrc]
  unfold inetNtop6
  generalize ntop6Loop src ⟨[], 0, 0, 0, none⟩ = q at hfinds hhexa
  cases hindex : q.longestIndex with
  | none =>
    have hnone := (hfinds.none hindex).2
    refine Or.inr ⟨fun hmapped => ?_, Or.inl ⟨hnone, ?_⟩⟩
    · obtain ⟨g, hg, hzero⟩ := isRun_five hmapped 0 (by decide) (by decide)
      exact hnone g (List.mem_of_getElem? hg) hzero
    · simp only [hindex]
      rw [hhexa, ← putGroups_eight hcells, putGroups_eq_intercalate (by rw [hcells])]
  | some k =>
    have hlast := hfinds.some k hindex
    have hle := hlast.isRun.le_length hlast.pos
    have hpos := hlast.pos
    rw [length_groupValues, hsrc] at hle
    simp only [hindex]
    by_cases hmapped : Mapped src
    · obtain ⟨rfl, hcount⟩ := hlast.unique (longest_mapped hmapped).2
      have hff := (mapped_iff hsrc (isRun_five hmapped)).mp hmapped
      rw [if_pos ⟨rfl, hcount, hff.1, hff.2⟩, inetNtop4_eq_dottedQuad (by simp [hsrc])]
      exact Or.inl ⟨hmapped, rfl⟩
    · rw [if_neg]
      · refine Or.inr ⟨hmapped, Or.inr ⟨k, q.longestCount, hlast, ?_⟩⟩
        rw [hhexa, compressed_eq_front, front,
          putGroups_eq_front (by rw [List.length_take, hcells]; omega),
          putGroups_eq_intercalate (by rw [List.length_drop, hcells]; omega)]
        by_cases hk : k = 0
        · rw [if_pos hk, if_pos (by rw [hk, List.take_zero])]
        · rw [if_neg hk, if_neg]
          intro hnil
          have hlen := congrArg List.length hnil
          rw [List.length_take, hcells, List.length_nil] at hlen
          omega
      · rintro ⟨rfl, hcount, hff⟩
        have hrun := hlast.isRun
        rw [hcount] at hrun
        exact hmapped ((mapped_iff hsrc hrun).mpr hff)

/-! ## Where the text is canonical -/

section Differ

variable {cells : List (List Char)} {k n : ℕ}

theorem exists_compressed_colon (cells : List (List Char)) (k n : ℕ) :
    ∃ rest, compressed cells k n = front cells k ++ ':' :: rest := by
  rw [compressed_eq_front]
  split_ifs with h
  · rw [front, h]
    exact ⟨_, rfl⟩
  · exact ⟨_, rfl⟩

theorem exists_intercalate_digit (hcells : ∀ cell ∈ cells, IsGroup cell) (hk : k < cells.length) :
    ∃ c rest, c ≠ ':' ∧ List.intercalate [':'] cells = front cells k ++ c :: rest := by
  have hdrop : cells.drop k ≠ [] := fun h => by
    have hlen := congrArg List.length h
    rw [List.length_drop, List.length_nil] at hlen
    omega
  obtain ⟨cell, tail, htail⟩ := List.exists_cons_of_ne_nil hdrop
  have hgroup := hcells cell (List.mem_of_mem_drop (by rw [htail]; exact List.mem_cons_self))
  have hnil : cell ≠ [] := List.length_pos_iff.mp hgroup.pos
  obtain ⟨c, digits, rfl⟩ := List.exists_cons_of_ne_nil hnil
  have hcolon : c ≠ ':' := by
    rintro rfl
    exact absurd (hgroup.hex ':' List.mem_cons_self) (by decide)
  have hjoin : ∃ rest, List.intercalate [':'] ((c :: digits) :: tail) = c :: rest := by
    cases tail with
    | nil => exact ⟨digits, List.intercalate_singleton⟩
    | cons cell' tail =>
      rw [List.intercalate_cons_cons]
      exact ⟨_, rfl⟩
  obtain ⟨rest, hrest⟩ := hjoin
  refine ⟨c, rest, hcolon, ?_⟩
  have hsplit := intercalate_append (cells.take k) hdrop
  rw [List.take_append_drop, htail, hrest] at hsplit
  exact hsplit

theorem exists_compressed_digit {k' : ℕ} (hcells : ∀ cell ∈ cells, IsGroup cell) (hk : k < k')
    (hk' : k' ≤ cells.length) (n : ℕ) :
    ∃ c rest, c ≠ ':' ∧ compressed cells k' n = front cells k ++ c :: rest := by
  have htake : ∀ cell ∈ cells.take k', IsGroup cell := fun cell h =>
    hcells cell (List.mem_of_mem_take h)
  have hlt : k < (cells.take k').length := by rw [List.length_take]; omega
  obtain ⟨c, rest, hc, hjoin⟩ := exists_intercalate_digit htake hlt
  rw [front, List.take_take, Nat.min_eq_left hk.le] at hjoin
  exact ⟨c, _, hc, by rw [compressed, hjoin, front, List.append_assoc]; rfl⟩

theorem ne_of_digit {l rest rest' : List Char} {c : Char} (hc : c ≠ ':') :
    l ++ ':' :: rest ≠ l ++ c :: rest' := by
  intro h
  exact hc (List.cons.inj (List.append_cancel_left h)).1.symm

end Differ

/-- There are no zero groups, or the first of the longest runs of at least two zero groups is the
last one. -/
def OneLongest (src : List UInt8) : Prop :=
  (∀ g ∈ groupValues src, g ≠ 0) ∨ ∃ k n, 2 ≤ n ∧
    FirstLongest (· = 0) (groupValues src) k n ∧ LastLongest (· = 0) (groupValues src) k n

theorem oneLongest_of_canonical (hsrc : src.length = 16)
    (h : Canonical src (inetNtop6 src)) : OneLongest src := by
  have hcells : (cellsOf src).length = 8 := by rw [length_cellsOf, hsrc]
  have hgroups : ∀ cell ∈ cellsOf src, IsGroup cell := fun _ => isGroup_of_mem_cellsOf
  obtain ⟨hmapped, -⟩ | ⟨hmapped, ⟨hnone, -⟩ | ⟨k', n', hlast, htext⟩⟩ := inetNtop6_eq hsrc
  · exact Or.inr ⟨0, 5, by decide, longest_mapped hmapped⟩
  · exact Or.inl hnone
  · have hle := hlast.isRun.le_length hlast.pos
    have hpos := hlast.pos
    rw [length_groupValues, hsrc] at hle
    obtain ⟨rest, hcolon⟩ := exists_compressed_colon (cellsOf src) k' n'
    generalize ht : inetNtop6 src = t at h htext
    cases h with
    | @mapped q hq => exact absurd ⟨q, hq, rfl⟩ hmapped
    | @run _ k n _ hfirst hn =>
      have hbound := hfirst.longest k' n' hlast.pos hlast.isRun
      have hbound' := hlast.longest k n hfirst.pos hfirst.isRun
      obtain rfl : n = n' := by omega
      obtain hk | rfl : k < k' ∨ k = k' := by omega
      · -- the texts part behind the groups in front of the first run
        obtain ⟨rest, hrest⟩ := exists_compressed_colon (cellsOf src) k n
        obtain ⟨c, rest', hc, hdigit⟩ := exists_compressed_digit hgroups hk (by omega) n
        rw [groupsText, groupsText, List.map_take, List.map_drop, ← cellsOf_eq] at htext
        change compressed (cellsOf src) k n = _ at htext
        rw [hrest, hdigit] at htext
        exact absurd htext (ne_of_digit hc)
      · exact Or.inr ⟨k, n, hn, hfirst, hlast⟩
    | plain _ hshort =>
      obtain ⟨c, rest', hc, hdigit⟩ := exists_intercalate_digit (k := k') hgroups (by omega)
      rw [groupsText, ← cellsOf_eq, hcolon, hdigit] at htext
      exact absurd htext.symm (ne_of_digit hc)

theorem canonical_of_oneLongest (hsrc : src.length = 16)
    (h : OneLongest src) : Canonical src (inetNtop6 src) := by
  obtain ⟨⟨q, hq, rfl⟩, htext⟩ | ⟨hmapped, ⟨hnone, htext⟩ | ⟨k', n', hlast, htext⟩⟩ :=
    inetNtop6_eq hsrc
  · rw [htext]
    exact .mapped hq
  · rw [htext, cellsOf_eq]
    refine .plain hmapped fun k n hrun => ?_
    by_contra hn
    obtain ⟨g, hg, hzero⟩ := hrun k le_rfl (by omega)
    exact hnone g (List.mem_of_getElem? hg) hzero
  · obtain hnone | ⟨k, n, hn, hfirst, hlast'⟩ := h
    · obtain ⟨g, hg, hzero⟩ := hlast.isRun k' le_rfl (by have := hlast.pos; omega)
      exact absurd hzero (hnone g (List.mem_of_getElem? hg))
    · obtain ⟨rfl, rfl⟩ := hlast.unique hlast'
      rw [htext, cellsOf_eq, compressed, ← List.map_take, ← List.map_drop]
      exact .run hmapped hfirst hn

/-- The text is canonical, if and only if the longest run is the only one and no single group. -/
theorem canonical_inetNtop6_iff {src : List UInt8} (hsrc : src.length = 16) :
    Canonical src (inetNtop6 src) ↔ OneLongest src :=
  ⟨oneLongest_of_canonical hsrc, canonical_of_oneLongest hsrc⟩

theorem canonical_inetNtop6_localhost :
    (List.replicate 15 (0 : UInt8) ++ [1]).length = 16 ∧
      (Canonical (List.replicate 15 0 ++ [1]) (inetNtop6 (List.replicate 15 0 ++ [1])) ↔
        OneLongest (List.replicate 15 0 ++ [1])) :=
  ⟨rfl, canonical_inetNtop6_iff rfl⟩

/-- A single zero group becomes `::`, and the second of two runs does. -/
theorem inetNtop6_not_canonical :
    ¬ Canonical [0, 1, 0, 0, 0, 2, 0, 3, 0, 4, 0, 5, 0, 6, 0, 7]
        (inetNtop6 [0, 1, 0, 0, 0, 2, 0, 3, 0, 4, 0, 5, 0, 6, 0, 7]) ∧
      inetNtop6 [0, 1, 0, 0, 0, 2, 0, 3, 0, 4, 0, 5, 0, 6, 0, 7] = "1::2:3:4:5:6:7".toList ∧
      inetNtop6 [0x20, 1, 0xD, 0xB8, 0, 0, 0, 0, 0, 1, 0, 0, 0, 0, 0, 1] =
        "2001:db8:0:0:1::1".toList := by
  refine ⟨fun h => ?_, by decide, by decide⟩
  obtain hnone | ⟨k, n, hn, hfirst, -⟩ := oneLongest_of_canonical rfl h
  · exact hnone 0 (by decide) rfl
  · have hpair : ∀ k < 8,
        ¬ ((groupValues [0, 1, 0, 0, 0, 2, 0, 3, 0, 4, 0, 5, 0, 6, 0, 7])[k]? = some 0 ∧
          (groupValues [0, 1, 0, 0, 0, 2, 0, 3, 0, 4, 0, 5, 0, 6, 0, 7])[k + 1]? = some 0) := by
      decide
    have hle : k + n ≤ 8 := hfirst.isRun.le_length hfirst.pos
    obtain ⟨g, hg, rfl⟩ := hfirst.isRun k le_rfl (by omega)
    obtain ⟨g, hg', rfl⟩ := hfirst.isRun (k + 1) (by omega) (by omega)
    exact hpair k (by omega) ⟨hg, hg'⟩

end Webpp.Ip
