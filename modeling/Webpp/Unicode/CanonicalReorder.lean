import Webpp.Foundation.StableSort
import Webpp.Unicode.SwapCodePoints

/-!
# `canonical_reorder`

The function is one for all encodings: it calls the overloads for the units it gets. In UTF-8 the
code points that are swapped can have different lengths. Then the ranges that are swapped overlap,
and the rest of the longer code point is moved to its place by a rotation.
-/

namespace Webpp.Unicode

open UnitCode StableSort

/-- The overloads for one encoding. -/
structure Encoding (β : Type) where
  nextCodePoint : List β → ℕ → Option (ℕ × ℕ)
  prevCodePoint : List β → ℕ → Option (ℕ × ℕ)
  nextChar : List β → ℕ → Option ℕ
  swapCodePoints : List β → ℕ → ℕ → Option (List β)

def utf8 : Encoding UInt8 where
  nextCodePoint := Utf8.nextCodePoint
  prevCodePoint := Utf8.prevCodePoint
  nextChar := Utf8.nextChar
  swapCodePoints := Utf8.swapCodePoints

/-- In UTF-32 a unit is a code point. -/
def utf32 : Encoding ℕ where
  nextCodePoint s pos := s[pos]?.map (fun c => (c, pos + 1))
  prevCodePoint s pos := (back pos).bind (fun pos => s[pos]?.map (fun c => (c, pos)))
  nextChar s pos := if pos < s.length then some (pos + 1) else none
  swapCodePoints := iterSwap

section Reorder

variable {β : Type} (e : Encoding β) (cccOf : ℕ → ℕ)

/-- The inner loop of `canonical_reorder` with at most `n` rounds. -/
def moveBack (ccc : ℕ) : ℕ → List β → ℕ → Option (List β)
  | 0, _, _ => none
  | n + 1, s, backPos =>
      if backPos = 0 then some s
      else
        (e.prevCodePoint s backPos).bind (fun prev =>
          if cccOf prev.1 ≤ ccc then some s
          else (e.swapCodePoints s backPos prev.2).bind (fun s => moveBack ccc n s prev.2))

/-- The outer loop of `canonical_reorder` with at most `n` rounds. -/
def reorderFrom : ℕ → List β → ℕ → Option (List β)
  | 0, _, _ => none
  | n + 1, s, pos =>
      if pos = s.length then some s
      else
        (e.nextCodePoint s pos).bind (fun cur =>
          if cccOf cur.1 = 0 then
            if cur.2 = s.length then some s
            else (e.nextChar s cur.2).bind (fun pos => reorderFrom n s pos)
          else
            (moveBack e cccOf (cccOf cur.1) (s.length + 1) s pos).bind
              (fun s => reorderFrom n s cur.2))

def canonicalReorder (s : List β) : Option (List β) :=
  if s.length = 0 then some s
  else (e.nextChar s 0).bind (fun pos => reorderFrom e cccOf (s.length + 1) s pos)

end Reorder

/-! ## Encodings -/

/-- The overloads do what they should at each code point that is `valid`, and two adjacent ones are
swapped if they are `movable`. -/
structure Lawful {β : Type} (e : Encoding β) (encode : ℕ → List β) (valid movable : ℕ → Prop) :
    Prop where
  encode_ne_nil (c : ℕ) : encode c ≠ []
  next {c : ℕ} (hc : valid c) (before after : List β) :
    e.nextCodePoint (before ++ (encode c ++ after)) before.length =
      some (c, before.length + (encode c).length)
  prev {c : ℕ} (hc : valid c) (before after : List β) :
    e.prevCodePoint (before ++ (encode c ++ after)) (before.length + (encode c).length) =
      some (c, before.length)
  nextChar {c : ℕ} (hc : valid c) (before after : List β) :
    e.nextChar (before ++ (encode c ++ after)) before.length =
      some (before.length + (encode c).length)
  swap {a b : ℕ} (ha : valid a) (hb : valid b) (hma : movable a) (hmb : movable b)
    (before after : List β) :
    e.swapCodePoints (before ++ (encode a ++ (encode b ++ after)))
      (before.length + (encode a).length) before.length =
        some (before ++ (encode b ++ (encode a ++ after)))

theorem lawful_utf8 : Lawful utf8 Utf8.encode (fun c => c < 0x110000) (fun c => 0x80 ≤ c) where
  encode_ne_nil := Utf8.encode_ne_nil
  next hc before after := (Utf8.movesBy_encode hc before after).nextCodePoint
  prev hc before after := (Utf8.movesBy_encode hc before after).prevCodePoint
  nextChar hc before after := (Utf8.movesBy_encode hc before after).nextChar
  swap ha hb hma _ before after :=
    Utf8.swapCodePoints_encoded (Utf8.encoded_encode ha) (Utf8.encoded_encode hb) hma before after

theorem lawful_utf32 : Lawful utf32 (fun c => [c]) (fun _ => True) (fun _ => True) where
  encode_ne_nil c := List.cons_ne_nil c []
  next _ before after := by simp [utf32]
  prev _ before after := by simp [utf32]
  nextChar _ before after := by simp [utf32]
  swap _ _ _ _ before after := by simp [utf32, iterSwap]

/-! ## The loops -/

section Loops

variable {β : Type} {e : Encoding β} {encode : ℕ → List β} {valid movable : ℕ → Prop}
  {cccOf : ℕ → ℕ}

theorem length_text_perm {l l' : List ℕ} (h : l.Perm l') :
    (text encode l).length = (text encode l').length := (h.flatMap_right encode).length_eq

theorem moveBack_text (he : Lawful e encode valid movable)
    (hmovable : ∀ c, cccOf c ≠ 0 → movable c) {l : List ℕ} (hl : ∀ d ∈ l, valid d) {c n : ℕ}
    (hc : valid c) (hccc : cccOf c ≠ 0) (hn : l.length < n) (after : List β) :
    moveBack e cccOf (cccOf c) n (text encode l ++ (encode c ++ after)) (text encode l).length =
      some (text encode (insertBack cccOf l c) ++ after) := by
  induction l using List.reverseRecOn generalizing n after with
  | nil =>
      obtain ⟨n, rfl⟩ := Nat.exists_eq_add_of_lt hn
      simp [moveBack]
  | append_singleton l d ih =>
      obtain ⟨n, rfl⟩ := Nat.exists_eq_add_of_lt hn
      have hd : valid d := hl d (by simp)
      have hpos : (text encode (l ++ [d])).length ≠ 0 := by
        have := List.length_pos_of_ne_nil (he.encode_ne_nil d)
        simp only [text_append, text_cons, text_nil, List.append_nil, List.length_append]
        omega
      have hprev := he.prev hd (text encode l) (encode c ++ after)
      rw [moveBack, if_neg hpos]
      simp only [text_append, text_cons, text_nil, List.append_nil, List.length_append,
        List.append_assoc]
      rw [hprev, Option.bind_some]
      dsimp only
      by_cases hle : cccOf d ≤ cccOf c
      · rw [if_pos hle, insertBack_concat_of_le l hle]
        simp
      · rw [if_neg hle, insertBack_concat_of_lt l (not_le.1 hle)]
        have hdccc : cccOf d ≠ 0 := fun h => hle (h ▸ Nat.zero_le _)
        rw [he.swap hd hc (hmovable d hdccc) (hmovable c hccc), Option.bind_some]
        have hlt : l.length < l.length + [d].length + n := by
          rw [List.length_singleton]
          omega
        rw [ih (fun d' hd' => hl d' (by simp [hd'])) hlt (encode d ++ after)]
        simp

theorem length_text_ne (he : Lawful e encode valid movable) (l : List ℕ) (c : ℕ) (rest : List ℕ) :
    (text encode l).length ≠ (text encode l ++ text encode (c :: rest)).length := by
  have hne := List.length_pos_of_ne_nil (he.encode_ne_nil c)
  rw [text_cons, List.length_append, List.length_append]
  omega

theorem valid_place {l : List ℕ} (hl : ∀ d ∈ l, valid d) {c : ℕ} (hc : valid c) :
    ∀ d ∈ place cccOf l c, valid d := by
  intro d hd
  have hmem := (place_perm l c).subset hd
  rcases List.mem_append.1 hmem with hmem | hmem
  · exact hl d hmem
  · rw [List.mem_singleton.1 hmem]
    exact hc

theorem length_text_place (l : List ℕ) (c : ℕ) :
    (text encode (place cccOf l c)).length = (text encode l).length + (encode c).length := by
  rw [length_text_perm (place_perm l c)]
  simp

theorem reorderFrom_of_ne (he : Lawful e encode valid movable)
    (hmovable : ∀ c, cccOf c ≠ 0 → movable c) {l : List ℕ} (hl : ∀ d ∈ l, valid d) {c : ℕ}
    (hc : valid c) (hccc : cccOf c ≠ 0) (n : ℕ) (r : List ℕ) :
    reorderFrom e cccOf (n + 1) (text encode l ++ text encode (c :: r)) (text encode l).length =
      reorderFrom e cccOf n (text encode (place cccOf l c) ++ text encode r)
        (text encode (place cccOf l c)).length := by
  have hfuel : l.length < (text encode l ++ (encode c ++ text encode r)).length + 1 := by
    have := length_le_text he.encode_ne_nil l
    rw [List.length_append]
    omega
  rw [reorderFrom, if_neg (length_text_ne he l c r), text_cons, he.next hc, Option.bind_some]
  dsimp only
  rw [if_neg hccc, moveBack_text he hmovable hl hc hccc hfuel, Option.bind_some,
    length_text_place, place_of_ne hccc]

theorem reorderFrom_of_last (he : Lawful e encode valid movable) (l : List ℕ) {c : ℕ}
    (hc : valid c) (hccc : cccOf c = 0) (n : ℕ) :
    reorderFrom e cccOf (n + 1) (text encode l ++ text encode [c]) (text encode l).length =
      some (text encode (l ++ [c])) := by
  have hend : (text encode l).length + (encode c).length =
      (text encode l ++ (encode c ++ text encode [])).length := by simp
  rw [reorderFrom, if_neg (length_text_ne he l c []), text_cons, he.next hc, Option.bind_some]
  dsimp only
  rw [if_pos hccc, if_pos hend]
  simp

theorem reorderFrom_of_starter (he : Lawful e encode valid movable) (l : List ℕ) {c d : ℕ}
    (hc : valid c) (hd : valid d) (hccc : cccOf c = 0) (n : ℕ) (r : List ℕ) :
    reorderFrom e cccOf (n + 1) (text encode l ++ text encode (c :: d :: r))
        (text encode l).length =
      reorderFrom e cccOf n (text encode (l ++ [c] ++ [d]) ++ text encode r)
        (text encode (l ++ [c] ++ [d])).length := by
  have hsplit : text encode l ++ (encode c ++ text encode (d :: r)) =
      text encode (l ++ [c]) ++ text encode (d :: r) := by simp
  have hlength : (text encode l).length + (encode c).length =
      (text encode (l ++ [c])).length := by simp
  rw [reorderFrom, if_neg (length_text_ne he l c (d :: r)), text_cons, he.next hc, Option.bind_some]
  dsimp only
  rw [if_pos hccc, hsplit, hlength, if_neg (length_text_ne he (l ++ [c]) d r), text_cons,
    he.nextChar hd, Option.bind_some]
  simp [Nat.add_assoc]

/-- The outer loop places the code points one after the other. A code point behind a starter is
placed where it is. -/
theorem reorderFrom_text (he : Lawful e encode valid movable)
    (hmovable : ∀ c, cccOf c ≠ 0 → movable c) {l rest : List ℕ} (hl : ∀ d ∈ l, valid d)
    (hrest : ∀ d ∈ rest, valid d) {n : ℕ} (hn : rest.length < n) :
    reorderFrom e cccOf n (text encode l ++ text encode rest) (text encode l).length =
      some (text encode (rest.foldl (place cccOf) l)) := by
  induction n generalizing l rest with
  | zero => exact absurd hn (Nat.not_lt_zero _)
  | succ n ih =>
      cases rest with
      | nil => simp [reorderFrom]
      | cons c r =>
          have hc : valid c := hrest c List.mem_cons_self
          rw [List.foldl_cons]
          by_cases hccc : cccOf c = 0
          · cases r with
            | nil => rw [reorderFrom_of_last he l hc hccc, place_of_eq hccc, List.foldl_nil]
            | cons d r =>
                have hd : valid d := hrest d (by simp)
                have hvalid : ∀ d' ∈ l ++ [c] ++ [d], valid d' := by
                  rw [← place_concat hccc l d, ← place_of_eq hccc l]
                  exact valid_place (valid_place hl hc) hd
                have hlt : r.length < n := by
                  simp only [List.length_cons] at hn
                  omega
                rw [reorderFrom_of_starter he l hc hd hccc, List.foldl_cons, place_of_eq hccc,
                  place_concat hccc]
                exact ih hvalid (fun d' hd' => hrest d' (by simp [hd'])) hlt
          · rw [reorderFrom_of_ne he hmovable hl hc hccc]
            exact ih (valid_place hl hc) (fun d hd => hrest d (List.mem_cons_of_mem c hd))
              (Nat.lt_of_succ_lt_succ hn)

theorem canonicalReorder_text (he : Lawful e encode valid movable)
    (hmovable : ∀ c, cccOf c ≠ 0 → movable c) {cs : List ℕ} (hcs : ∀ c ∈ cs, valid c) :
    canonicalReorder e cccOf (text encode cs) = some (text encode (sortRuns cccOf [] cs)) := by
  rw [← foldl_place_nil]
  cases cs with
  | nil => rfl
  | cons c cs =>
      have hc : valid c := hcs c List.mem_cons_self
      have hne := List.length_pos_of_ne_nil (he.encode_ne_nil c)
      have hlength : ¬ (text encode (c :: cs)).length = 0 := by
        rw [text_cons, List.length_append]
        omega
      have hchar := he.nextChar hc [] (text encode cs)
      rw [List.nil_append, List.length_nil, Nat.zero_add] at hchar
      rw [canonicalReorder, if_neg hlength, text_cons, hchar, Option.bind_some]
      have hvalid : ∀ d ∈ [c], valid d := by simpa using hc
      have hfuel : cs.length < (encode c ++ text encode cs).length + 1 := by
        have := length_le_text he.encode_ne_nil cs
        rw [List.length_append]
        omega
      have hfrom := reorderFrom_text he hmovable hvalid
        (fun d hd => hcs d (List.mem_cons_of_mem c hd)) hfuel
      rw [List.foldl_cons, place_nil]
      simpa using hfrom

end Loops

/-! ## The contract -/

/-- The classes come from a table, in which the code points of ASCII are starters. The units of a
well-formed string are reordered as its code points are: each maximal run of non-starters is
sorted, and no starter is moved. -/
theorem canonicalReorder_utf8 (cccOf : ℕ → ℕ) (hascii : ∀ c < 0x80, cccOf c = 0) (cs : List ℕ)
    (hcs : ∀ c ∈ cs, IsScalar c) :
    canonicalReorder utf8 cccOf (appendAll Utf8.append cs) =
        some (appendAll Utf8.append (sortRuns cccOf [] cs)) ∧
      (sortRuns cccOf [] cs).Perm cs ∧
      canonicalReorder utf32 cccOf cs = some (sortRuns cccOf [] cs) ∧
      forwards Utf8.nextCodePoint (appendAll Utf8.append (sortRuns cccOf [] cs)) =
        canonicalReorder utf32 cccOf cs := by
  have hlt : ∀ c ∈ cs, c < 0x110000 := fun c hc => lt_of_isScalar (hcs c hc)
  have hmovable : ∀ c, cccOf c ≠ 0 → 0x80 ≤ c :=
    fun c hc => Nat.le_of_not_lt (fun h => hc (hascii c h))
  have hperm : (sortRuns cccOf [] cs).Perm cs := sortRuns_perm [] cs
  have h8 : canonicalReorder utf8 cccOf (appendAll Utf8.append cs) =
      some (appendAll Utf8.append (sortRuns cccOf [] cs)) := by
    rw [appendAll_eq Utf8.append_eq, appendAll_eq Utf8.append_eq]
    exact canonicalReorder_text lawful_utf8 hmovable hlt
  have h32 : canonicalReorder utf32 cccOf cs = some (sortRuns cccOf [] cs) := by
    have htext : canonicalReorder utf32 cccOf (text (fun c => [c]) cs) =
        some (text (fun c => [c]) (sortRuns cccOf [] cs)) :=
      canonicalReorder_text lawful_utf32 (fun _ _ => trivial) (fun _ _ => trivial)
    simpa [text] using htext
  refine ⟨h8, hperm, h32, ?_⟩
  rw [h32]
  exact Utf8.forwards_nextCodePoint (fun c hc => hcs c (hperm.subset hc))

theorem canonicalReorder_utf8_dot_below :
    ∃ cccOf : ℕ → ℕ, cccOf 0x301 = 230 ∧ cccOf 0x323 = 220 ∧
      canonicalReorder utf8 cccOf (appendAll Utf8.append [0x61, 0x301, 0x323]) =
        some (appendAll Utf8.append [0x61, 0x323, 0x301]) := by
  let cccOf : ℕ → ℕ := fun c => if c = 0x301 then 230 else if c = 0x323 then 220 else 0
  refine ⟨cccOf, rfl, rfl, ?_⟩
  have hascii : ∀ c < 0x80, cccOf c = 0 := by decide
  have hreorder := (canonicalReorder_utf8 cccOf hascii [0x61, 0x301, 0x323] (by decide)).1
  have hsort : sortRuns cccOf [] [0x61, 0x301, 0x323] = [0x61, 0x323, 0x301] := by
    simp [sortRuns, sortBy, cccOf, List.mergeSort]
  rwa [hsort] at hreorder

end Webpp.Unicode
