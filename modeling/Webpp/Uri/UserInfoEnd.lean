import Webpp.Uri.UriString

/-!
# The end of the user information

`parse_user_info` looks at the authority up to the first offset that is known, and takes the
first delimiter there for the end of the user information or for a sign that there is none. It
finds the same in front of every limit that is behind the character that decides.
-/

namespace Webpp.Uri

open Text

variable {text : List Char}

/-- The place that ends the user information, if the first delimiter is at `i`. -/
def separatorAt (text : List Char) : ℕ → Option ℕ
  | 0 => if text.head? ≠ some '[' then some 0 else none
  | i + 1 => if text[i + 1]? = some ':' then findFrom '@' (i + 1) text else some (i + 1)

/-- The place in the text of an authority that ends the user information. -/
def separatorOf (text : List Char) : Option ℕ :=
  (findFirstOf [':', '[', '@'] text).bind (separatorAt text)

/-- The offset of a place in the text of an authority: a bracket is left where it is. -/
def placeOf (authorityStart : ℕ) (text : List Char) (i : ℕ) : ℕ :=
  if i ≠ 0 ∧ text[i]? = some '@' then i + authorityStart else i

theorem le_of_separatorAt {i d : ℕ} (h : separatorAt text i = some d) :
    i ≤ d := by
  cases i with
  | zero => exact Nat.zero_le d
  | succ i =>
      rw [separatorAt] at h
      split at h
      · exact (getElem?_of_findFrom h).1
      · exact (Option.some.inj h).le

theorem filter_lt_of_lt {i k : ℕ} (h : i < k) :
    (some i).filter (fun j => decide (j < k)) = some i := by
  rw [Option.filter_some, if_pos (decide_eq_true h)]

theorem separatorAt_take (text : List Char) {i k : ℕ} (hk : i < k) :
    separatorAt (text.take k) i = (separatorAt text i).filter (· < k) := by
  have hat : (text.take k)[i]? = text[i]? := List.getElem?_take_of_lt hk
  cases i with
  | zero =>
      rw [separatorAt, separatorAt, List.head?_eq_getElem?, List.head?_eq_getElem?, hat]
      split
      · exact (filter_lt_of_lt hk).symm
      · rfl
  | succ i =>
      rw [separatorAt, separatorAt, hat, findFrom_take]
      split
      · rfl
      · exact (filter_lt_of_lt hk).symm

theorem separatorOf_take (text : List Char) (k : ℕ) :
    separatorOf (text.take k) = (separatorOf text).filter (· < k) := by
  rw [separatorOf, findFirstOf_take, separatorOf]
  cases findFirstOf [':', '[', '@'] text with
  | none => rfl
  | some i =>
      by_cases hk : i < k
      · rw [filter_lt_of_lt hk]
        exact separatorAt_take text hk
      · have hnone : (some i).filter (fun j => decide (j < k)) = none :=
          Option.filter_eq_none_iff.mpr (by simpa using hk)
        rw [hnone, Option.bind_some, Option.bind_none]
        symm
        rw [Option.filter_eq_none_iff]
        intro d hd hdk
        exact hk ((le_of_separatorAt hd).trans_lt (of_decide_eq_true hdk))

theorem lt_of_separatorOf {d : ℕ} (h : separatorOf text = some d) :
    d < text.length := by
  have hfilter := separatorOf_take text text.length
  rw [List.take_length, h] at hfilter
  exact of_decide_eq_true (Option.filter_eq_some_iff.mp hfilter.symm).2

/-- `parse_user_info` finds the separator in the part that it looks at. -/
theorem userInfoEndOf_eq (data : List Char) {authorityStart : ℕ}
    (h : authorityStart ≠ data.length) (limit : ℕ) :
    userInfoEndOf data authorityStart limit =
      ((separatorOf (span data authorityStart limit)).map
        (placeOf authorityStart (span data authorityStart limit))).getD data.length := by
  rw [userInfoEndOf, if_neg h]
  generalize span data authorityStart limit = text
  dsimp only
  rw [separatorOf]
  cases hfind : findFirstOf [':', '[', '@'] text with
  | none => rfl
  | some i =>
      cases i with
      | zero =>
          dsimp only [Option.bind_some, separatorAt]
          split <;> rfl
      | succ i =>
          dsimp only [Option.bind_some, separatorAt]
          have hplace : ∀ j, j ≠ 0 → text[j]? = some '@' →
              placeOf authorityStart text j = j + authorityStart := fun j hj hat =>
            if_pos ⟨hj, hat⟩
          by_cases hat : text[i + 1]? = some '@'
          · have hcolon : ¬ text[i + 1]? = some ':' := by
              rw [hat]
              simp
            rw [if_pos hat, if_neg hcolon]
            exact (hplace _ (Nat.succ_ne_zero i) hat).symm
          · rw [if_neg hat]
            split
            · cases hfrom : findFrom '@' (i + 1) text with
              | none => rfl
              | some j =>
                  obtain ⟨hij, hj⟩ := getElem?_of_findFrom hfrom
                  exact (hplace j (Nat.ne_of_gt (Nat.lt_of_lt_of_le i.succ_pos hij)) hj).symm
            · exact (if_neg fun h => hat h.2).symm

theorem placeOf_take (authorityStart : ℕ) (text : List Char) {d k : ℕ} (h : d < k) :
    placeOf authorityStart (text.take k) d = placeOf authorityStart text d := by
  rw [placeOf, List.getElem?_take_of_lt h, placeOf]

theorem placeOf_lt {authorityStart : ℕ} {d : ℕ} (h : d < text.length) :
    placeOf authorityStart text d < text.length + authorityStart := by
  rw [placeOf]
  split
  · exact Nat.add_lt_add_right h _
  · exact Nat.lt_add_right _ h

/-- The separator, if there is one, is in front of the limit, or the limit is in front of the
authority, where it counts for nothing. -/
def SeparatorBefore (data : List Char) (authorityStart limit : ℕ) : Prop :=
  ∀ d ∈ separatorOf (data.drop authorityStart),
    limit < authorityStart ∨ authorityStart + d < limit

section UserInfo

variable {data : List Char} {authorityStart limit : ℕ}

theorem userInfoEndOf_of_before (hle : authorityStart ≤ data.length)
    (h : SeparatorBefore data authorityStart limit) :
    userInfoEndOf data authorityStart limit = userInfoEndOf data authorityStart data.length := by
  by_cases hne : authorityStart = data.length
  · rw [userInfoEndOf, if_pos hne, userInfoEndOf, if_pos hne]
  · rw [userInfoEndOf_eq data hne, userInfoEndOf_eq data hne, span_length hle, span]
    split
    · rfl
    · rename_i hlimit
      rw [separatorOf_take]
      cases hsep : separatorOf (data.drop authorityStart) with
      | none => rfl
      | some d =>
          have hd : d < limit - authorityStart :=
            Nat.lt_sub_of_add_lt (Nat.add_comm _ _ ▸ (h d hsep).resolve_left hlimit)
          rw [filter_lt_of_lt hd, Option.map_some, placeOf_take _ _ hd, Option.map_some]

theorem userInfoEndOf_length_lt {d : ℕ} (h : separatorOf (data.drop authorityStart) = some d) :
    userInfoEndOf data authorityStart data.length < data.length := by
  have hd := lt_of_separatorOf h
  have hlt : authorityStart < data.length := by
    rw [List.length_drop] at hd
    omega
  rw [userInfoEndOf_eq data hlt.ne, span_length hlt.le, h, Option.map_some, Option.getD_some]
  have hplace : placeOf authorityStart (data.drop authorityStart) d <
      (data.drop authorityStart).length + authorityStart := placeOf_lt hd
  rwa [List.length_drop, Nat.sub_add_cancel hlt.le] at hplace

theorem userInfoEndOf_of_none (hle : authorityStart ≤ data.length)
    (h : separatorOf (data.drop authorityStart) = none) :
    userInfoEndOf data authorityStart data.length = data.length := by
  by_cases hne : authorityStart = data.length
  · rw [userInfoEndOf, if_pos hne]
  · rw [userInfoEndOf_eq data hne, span_length hle, h]
    rfl

/-- Nothing is found if and only if there is no separator. -/
theorem userInfoEndOf_eq_length_iff (hle : authorityStart ≤ data.length) :
    userInfoEndOf data authorityStart data.length = data.length ↔
      separatorOf (data.drop authorityStart) = none := by
  constructor
  · intro h
    cases hsep : separatorOf (data.drop authorityStart) with
    | none => rfl
    | some d => exact absurd h (userInfoEndOf_length_lt hsep).ne
  · exact userInfoEndOf_of_none hle

/-- A separator that is not in front of the limit is not found. -/
theorem userInfoEndOf_of_not_before {d : ℕ}
    (h : separatorOf (data.drop authorityStart) = some d) (hstart : authorityStart ≤ limit)
    (hlimit : limit ≤ authorityStart + d) :
    userInfoEndOf data authorityStart limit = data.length := by
  have hd := lt_of_separatorOf h
  have hne : authorityStart ≠ data.length := by
    rw [List.length_drop] at hd
    omega
  have hnone : (some d).filter (fun j => decide (j < limit - authorityStart)) = none := by
    rw [Option.filter_some, if_neg]
    simp
    omega
  rw [userInfoEndOf_eq data hne, span, if_neg hstart.not_gt, separatorOf_take, h, hnone]
  rfl

end UserInfo

/-! ## Limits -/

section Limits

variable {data chars : List Char} {start d : ℕ} {c : Char}

/-- The first of some characters does not come between `start` and the place `d` behind it. -/
def ClearOf (chars data : List Char) (start d : ℕ) : Prop :=
  (∃ x ∈ data.take start, x ∈ chars) ∨ ∀ x ∈ (data.drop start).take d, x ∉ chars

theorem first_lt_iff (hstart : start ≤ data.length) :
    (findFirstOf chars data).getD data.length < start ↔ ∃ x ∈ data.take start, x ∈ chars := by
  cases hfirst : findFirstOf chars data with
  | none =>
      have hnone := findFirstOf_eq_none_iff.mp hfirst
      refine iff_of_false (Nat.not_lt.mpr hstart) ?_
      rintro ⟨x, hx, hmem⟩
      exact hnone x (List.mem_of_mem_take hx) hmem
  | some i =>
      rw [Option.getD_some]
      constructor
      · intro hi
        obtain ⟨x, hx, hmem⟩ := getElem?_of_findFirstOf hfirst
        exact ⟨x, List.mem_of_getElem? ((List.getElem?_take_of_lt hi).trans hx), hmem⟩
      · rintro ⟨y, hy, hyc⟩
        obtain ⟨j, hj⟩ := List.mem_iff_getElem?.mp hy
        have hjs := (List.getElem?_eq_some_iff.mp hj).1
        rw [List.length_take, Nat.lt_min] at hjs
        rw [List.getElem?_take_of_lt hjs.1] at hj
        exact (le_of_findFirstOf hfirst hj hyc).trans_lt hjs.1

theorem first_clear_iff (hat : data[start + d]? = some c) (hc : c ∉ chars) :
    ((findFirstOf chars data).getD data.length < start ∨
        start + d < (findFirstOf chars data).getD data.length) ↔
      ClearOf chars data start d := by
  have hlength : start + d < data.length := (List.getElem?_eq_some_iff.mp hat).1
  rw [ClearOf, ← first_lt_iff (by omega)]
  refine or_congr_right' fun hge => ?_
  cases hfirst : findFirstOf chars data with
  | none =>
      have hnone := findFirstOf_eq_none_iff.mp hfirst
      exact iff_of_true hlength fun x hx =>
        hnone x (List.mem_of_mem_drop (List.mem_of_mem_take hx))
  | some i =>
      obtain ⟨x, hx, hmem⟩ := getElem?_of_findFirstOf hfirst
      rw [hfirst] at hge
      have hi : start ≤ i := Nat.not_lt.mp hge
      rw [Option.getD_some]
      constructor
      · intro hlt y hy hyc
        obtain ⟨j, hj⟩ := List.mem_iff_getElem?.mp hy
        have hjd := (List.getElem?_eq_some_iff.mp hj).1
        rw [List.length_take, Nat.lt_min] at hjd
        rw [List.getElem?_take_of_lt hjd.1, List.getElem?_drop] at hj
        have hle := le_of_findFirstOf hfirst hj hyc
        omega
      · intro hclear
        by_contra hle
        have hne : i ≠ start + d := by
          rintro rfl
          rw [hat, Option.some.injEq] at hx
          exact hc (hx ▸ hmem)
        have hin : ((data.drop start).take d)[i - start]? = some x := by
          rw [List.getElem?_take_of_lt (by omega), List.getElem?_drop, Nat.add_sub_cancel' hi, hx]
        exact hclear x (List.mem_of_getElem? hin) hmem

theorem min_queryStart_fragmentStart (data : List Char) :
    min (queryStartOf data (fragmentStartOf data)) (fragmentStartOf data) =
      (findFirstOf ['?', '#'] data).getD data.length := by
  rw [queryStartOf, fragmentStartOf, findFirstOf_take, findFirstOf_pair]
  cases hq : findFirstOf ['?'] data with
  | none =>
      cases hf : findFirstOf ['#'] data with
      | none => exact min_self _
      | some f => exact min_eq_right (lt_of_findFirstOf hf).le
  | some q =>
      have hql := lt_of_findFirstOf hq
      cases hf : findFirstOf ['#'] data with
      | none =>
          rw [Option.getD_none, Option.filter_some, if_pos (decide_eq_true hql)]
          exact min_eq_left hql.le
      | some f =>
          rw [Option.getD_some, Option.filter_some]
          change _ = min q f
          split
          · rfl
          · rename_i hqf
            have hle : f ≤ q := Nat.not_lt.mp (mt decide_eq_true hqf)
            exact (min_eq_right (lt_of_findFirstOf hf).le).trans (min_eq_right hle).symm

end Limits

/-! ## The limit of the path -/

/-- The separator is not behind an `@`. -/
theorem le_of_separatorOf {d j : ℕ} (h : separatorOf text = some d)
    (hj : text[j]? = some '@') : d ≤ j := by
  rw [separatorOf, Option.bind_eq_some_iff] at h
  obtain ⟨i, hi, hat⟩ := h
  have hle : i ≤ j := le_of_findFirstOf hi hj (by simp)
  cases i with
  | zero =>
      rw [separatorAt] at hat
      split at hat
      · cases hat
        exact hle
      · cases hat
  | succ i =>
      rw [separatorAt] at hat
      split at hat
      · exact le_of_findFrom hat hle hj
      · cases hat
        exact hle

/-- User information ends at an `@`, or at the first delimiter, and that is a bracket or it is
in front. -/
theorem getElem?_of_separatorOf {d : ℕ} (h : separatorOf text = some d) :
    text[d]? = some '@' ∨
      findFirstOf [':', '[', '@'] text = some d ∧ (text[d]? = some '[' ∨ d = 0) := by
  rw [separatorOf, Option.bind_eq_some_iff] at h
  obtain ⟨i, hi, hat⟩ := h
  cases i with
  | zero =>
      rw [separatorAt] at hat
      split at hat
      · cases hat
        exact .inr ⟨hi, .inr rfl⟩
      · cases hat
  | succ i =>
      rw [separatorAt] at hat
      split at hat
      · exact .inl (getElem?_of_findFrom hat).2
      · rename_i hcolon
        cases hat
        obtain ⟨c, hc, hmem⟩ := getElem?_of_findFirstOf hi
        simp only [List.mem_cons, List.not_mem_nil, or_false] at hmem
        obtain rfl | rfl | rfl := hmem
        · exact absurd hc hcolon
        · exact .inr ⟨hi, .inl hc⟩
        · exact .inl hc

theorem delimiter_of_separatorOf {d : ℕ} (h : separatorOf text = some d) :
    ∃ c, text[d]? = some c ∧ c ∈ [':', '[', '@'] := by
  obtain hat | ⟨hfirst, -⟩ := getElem?_of_separatorOf h
  · exact ⟨'@', hat, by simp⟩
  · exact getElem?_of_findFirstOf hfirst

theorem separatorOf_front {c : Char} (hc : c ∈ [':', '[', '@'])
    (hbracket : c ≠ '[') : separatorOf (c :: text) = some 0 := by
  rw [separatorOf, findFirstOf_cons, if_pos hc, Option.bind_some, separatorAt, if_pos]
  exact fun h => hbracket (Option.some.inj h)

theorem separatorOf_bracket (text : List Char) : separatorOf ('[' :: text) = none := by
  rw [separatorOf, findFirstOf_cons, if_pos (by simp), Option.bind_some, separatorAt, if_neg]
  exact not_not_intro rfl

/-- User information without a colon in front ends at the first `@`. -/
theorem separatorOf_at {pre post : List Char} (hne : pre ≠ []) (hcolon : pre.head? ≠ some ':')
    (hfree : ∀ c ∈ pre, c ∉ ['[', '@']) : separatorOf (pre ++ '@' :: post) = some pre.length := by
  have hpos : 0 < pre.length := List.length_pos_of_ne_nil hne
  have hat : (pre ++ '@' :: post)[pre.length]? = some '@' := by
    rw [List.getElem?_append_right le_rfl, Nat.sub_self, List.getElem?_cons_zero]
  rw [separatorOf]
  cases hfirst : findFirstOf [':', '[', '@'] (pre ++ '@' :: post) with
  | none => exact absurd (by simp) (findFirstOf_eq_none_iff.mp hfirst '@' (by simp))
  | some i =>
      rw [Option.bind_some]
      have hle : i ≤ pre.length := le_of_findFirstOf hfirst hat (by simp)
      rcases hle.lt_or_eq with hlt | rfl
      · -- a colon is in front of the separator
        obtain ⟨c, hc, hmem⟩ := getElem?_of_findFirstOf hfirst
        rw [List.getElem?_append_left hlt] at hc
        have hfree' := hfree c (List.mem_of_getElem? hc)
        have hcc : c = ':' := by
          simp only [List.mem_cons, List.not_mem_nil, or_false, not_or] at hmem hfree'
          exact hmem.resolve_right fun h => h.elim hfree'.1 hfree'.2
        rw [hcc] at hc
        cases i with
        | zero =>
            rw [← List.head?_eq_getElem?] at hc
            exact absurd hc hcolon
        | succ i =>
            rw [separatorAt, List.getElem?_append_left hlt, if_pos hc]
            exact findFrom_append_cons hle fun hin => hfree '@' hin (by simp)
      · cases hlength : pre.length with
        | zero => exact absurd hlength hpos.ne'
        | succ k =>
            rw [hlength] at hat
            rw [separatorAt, hat, if_neg (by simp)]

/-- An `@` is found to be a separator, or something in front of it. -/
theorem separatorOf_isSome (hat : '@' ∈ text) (hhead : text.head? ≠ some '[') :
    separatorOf text ≠ none := by
  obtain ⟨j, hj⟩ := List.mem_iff_getElem?.mp hat
  rw [separatorOf]
  cases hfirst : findFirstOf [':', '[', '@'] text with
  | none => exact absurd (by simp) (findFirstOf_eq_none_iff.mp hfirst '@' hat)
  | some i =>
      rw [Option.bind_some]
      cases i with
      | zero =>
          rw [separatorAt, if_pos hhead]
          exact Option.some_ne_none 0
      | succ i =>
          have hle : i + 1 ≤ j := le_of_findFirstOf hfirst hj (by simp)
          rw [separatorAt]
          split
          · intro hnone
            refine findFrom_eq_none_iff.mp hnone (List.mem_of_getElem? (i := j - (i + 1)) ?_)
            rw [List.getElem?_drop, Nat.add_sub_cancel' hle, hj]
          · exact Option.some_ne_none _

/-- Without an `@` and a bracket, a separator is a colon in front. -/
theorem separatorOf_eq_none (hcolon : text.head? ≠ some ':')
    (hfree : ∀ c ∈ text, c ∉ ['[', '@']) : separatorOf text = none := by
  cases hsep : separatorOf text with
  | none => rfl
  | some d =>
      obtain hat | ⟨hfirst, hbracket | rfl⟩ := getElem?_of_separatorOf hsep
      · exact absurd (by simp) (hfree '@' (List.mem_of_getElem? hat))
      · exact absurd (by simp) (hfree '[' (List.mem_of_getElem? hbracket))
      · obtain ⟨c, hc, hmem⟩ := getElem?_of_findFirstOf hfirst
        have hin := List.mem_of_getElem? hc
        rw [← List.head?_eq_getElem?] at hc
        simp only [List.mem_cons, List.not_mem_nil, or_false] at hmem
        obtain rfl | rfl | rfl := hmem
        · exact absurd hc hcolon
        · exact absurd (by simp) (hfree '[' hin)
        · exact absurd (by simp) (hfree '@' hin)

/-- `is_urn` of `parse_path`. -/
def hasUrnScheme (data : List Char) (schemeEnd : ℕ) : Bool :=
  schemeEnd != data.length && isUrn (data.take schemeEnd)

section Path

variable {data : List Char} {schemeEnd start stop d : ℕ}

/-- The end of the authority is behind the place where the search starts, unless that place
has the delimiter. -/
theorem lt_of_found {delim c : Char} {urn : Bool} (hat : data[start]? = some c)
    (hc : c ≠ delim) :
    start < match findFirstOf [delim] (span data start stop) with
      | none => data.length
      | some i => i + (start + urn.toNat) := by
  split
  · exact (List.getElem?_eq_some_iff.mp hat).1
  · rename_i i hi
    obtain ⟨x, hx, hmem⟩ := getElem?_of_findFirstOf hi
    cases i with
    | zero =>
        rw [List.mem_singleton.mp hmem] at hx
        have hx' := getElem?_of_span hx
        rw [Nat.add_zero, hat] at hx'
        exact absurd (Option.some.inj hx') hc
    | succ i =>
        have hle : start ≤ start + urn.toNat := Nat.le_add_right _ _
        exact hle.trans_lt (Nat.lt_add_of_pos_left i.succ_pos)

theorem authorityEndOf_eq (hne : start ≠ data.length) :
    authorityEndOf data schemeEnd start stop =
      match findFirstOf [if hasUrnScheme data schemeEnd then ':' else '/']
        (span data ((findFrom '@' start data).getD start) stop) with
      | none => data.length
      | some i => i + ((findFrom '@' start data).getD start +
          (hasUrnScheme data schemeEnd).toNat) := by
  rw [authorityEndOf, if_neg fun h => hne h.1]
  dsimp only
  rw [if_pos hne]
  rfl

theorem lt_found_slash_iff (hsep : (data.drop start)[d]? = some '[') (hstop : start + d < stop) :
    (start + d < match findFirstOf ['/'] (span data start stop) with
      | none => data.length
      | some i => i + (start + false.toNat)) ↔
      '/' ∉ (data.drop start).take d := by
  have hspan : span data start stop = (data.drop start).take (stop - start) :=
    if_neg (by omega)
  have hlength := (List.getElem?_eq_some_iff.mp hsep).1
  rw [List.length_drop] at hlength
  cases hfirst : findFirstOf ['/'] (span data start stop) with
  | none =>
      rw [hspan, findFirstOf_eq_none_iff] at hfirst
      have hout : '/' ∉ (data.drop start).take d := fun hin =>
        hfirst '/' (List.take_subset_take_left _ (by omega) hin) (List.mem_singleton_self _)
      exact iff_of_true (Nat.add_lt_of_lt_sub' hlength) hout
  | some i =>
      obtain ⟨c, hc, hmem⟩ := getElem?_of_findFirstOf hfirst
      rw [List.mem_singleton.mp hmem] at hc
      change start + d < i + start ↔ _
      constructor
      · intro hlt hin
        obtain ⟨j, hj⟩ := List.mem_iff_getElem?.mp hin
        have hjd := (List.getElem?_eq_some_iff.mp hj).1
        rw [List.length_take] at hjd
        rw [List.getElem?_take_of_lt (by omega)] at hj
        have hle : i ≤ j := by
          refine le_of_findFirstOf hfirst ?_ (List.mem_singleton_self _)
          rw [hspan, List.getElem?_take_of_lt (by omega), hj]
        omega
      · intro hout
        have hat := getElem?_of_span hc
        rw [← List.getElem?_drop] at hat
        have hne : i ≠ d := by
          rintro rfl
          rw [hsep] at hat
          cases hat
        by_contra hle
        refine hout (List.mem_of_getElem? (i := i) ?_)
        rw [List.getElem?_take_of_lt (by omega), hat]

/-- The path is behind the user information, except where a bracket ends it: a slash in front
of the bracket counts then. -/
theorem authorityEnd_clear_iff (hsep : separatorOf (data.drop start) = some d)
    (hstop : start + d < stop) :
    start + d < authorityEndOf data schemeEnd start stop ↔
      hasUrnScheme data schemeEnd = true ∨ (data.drop start)[d]? ≠ some '[' ∨
        '@' ∈ data.drop start ∨ '/' ∉ (data.drop start).take d := by
  have hlength := lt_of_separatorOf hsep
  rw [List.length_drop] at hlength
  rw [authorityEndOf_eq (by omega)]
  cases hat : findFrom '@' start data with
  | some j =>
      obtain ⟨hj, hjat⟩ := getElem?_of_findFrom hat
      have hdrop : (data.drop start)[j - start]? = some '@' := by
        rw [List.getElem?_drop, Nat.add_sub_cancel' hj, hjat]
      have hle := le_of_separatorOf hsep hdrop
      have hdelim : '@' ≠ if hasUrnScheme data schemeEnd then ':' else '/' := by
        split <;> simp
      rw [Option.getD_some]
      refine iff_of_true ?_ (.inr (.inr (.inl (List.mem_of_getElem? hdrop))))
      exact Nat.lt_of_le_of_lt (by omega) (lt_of_found hjat hdelim)
  | none =>
      have hout := findFrom_eq_none_iff.mp hat
      have hhas : ∀ i : ℕ, (data.drop start)[i]? ≠ some '@' := fun i h =>
        hout (List.mem_of_getElem? h)
      obtain ⟨hfirst, hbracket⟩ := (getElem?_of_separatorOf hsep).resolve_left (hhas d)
      rw [Option.getD_none]
      cases hurn : hasUrnScheme data schemeEnd with
      | true =>
          refine iff_of_true ?_ (.inl rfl)
          cases hfound : findFirstOf [if true = true then ':' else '/'] (span data start stop) with
          | none => exact Nat.add_lt_of_lt_sub' hlength
          | some i =>
              obtain ⟨c, hc, hmem⟩ := getElem?_of_findFirstOf hfound
              have hcolon := getElem?_of_span hc
              rw [List.mem_singleton.mp hmem, ← List.getElem?_drop] at hcolon
              have hle : d ≤ i := le_of_findFirstOf hfirst hcolon (by simp)
              change start + d < i + (start + 1)
              omega
      | false =>
          obtain hbracket | rfl := hbracket
          · have hiff := lt_found_slash_iff hbracket hstop
            simpa [hbracket, hout] using hiff
          · obtain ⟨c, hc, hmem⟩ := getElem?_of_findFirstOf hfirst
            rw [List.getElem?_drop, Nat.add_zero] at hc
            have hslash : c ≠ '/' := by
              rintro rfl
              simp at hmem
            exact iff_of_true (lt_of_found hc hslash) (.inr (.inr (.inr (List.not_mem_nil))))

theorem le_authorityEndOf (h : start < data.length) :
    start ≤ authorityEndOf data schemeEnd start stop := by
  have hstart : start ≤ (findFrom '@' start data).getD start := by
    cases hat : findFrom '@' start data with
    | none => exact le_rfl
    | some j => exact (getElem?_of_findFrom hat).1
  rw [authorityEndOf_eq h.ne]
  split
  · exact h.le
  · exact (hstart.trans (Nat.le_add_right _ _)).trans (Nat.le_add_left _ _)

end Path

/-! ## User information in front -/

/-- The separator at `d` is found whatever is known: no number sign and no question mark comes
between the start of the authority and it, and a slash only if the separator is no bracket or
does not count for the path. -/
structure FoundInFront (data : List Char) (d : ℕ) : Prop where
  separator : separatorOf (data.drop (schemeOf data).authorityStart) = some d
  fragment : ClearOf ['#'] data (schemeOf data).authorityStart d
  query : ClearOf ['?', '#'] data (schemeOf data).authorityStart d
  path : (∃ x ∈ data.take (schemeOf data).authorityStart, x ∈ ['?', '#']) ∨
    hasUrnScheme data (schemeOf data).schemeEnd = true ∨
    (data.drop (schemeOf data).authorityStart)[d]? ≠ some '[' ∨
    '@' ∈ data.drop (schemeOf data).authorityStart ∨
    '/' ∉ (data.drop (schemeOf data).authorityStart).take d

/-- The text of an authority has user information, and it is in front of everything else. -/
def UserInfoInFront (data : List Char) : Prop := ∃ d, FoundInFront data d

/-- The offsets that can be known when the user information is looked for. -/
def limits (data : List Char) : List ℕ :=
  let fragmentStart := fragmentStartOf data
  let queryStart := queryStartOf data fragmentStart
  let authorityEnd :=
    authorityEndOf data (schemeOf data).schemeEnd (schemeOf data).authorityStart queryStart
  [fragmentStart, min queryStart fragmentStart,
    min authorityEnd (min queryStart fragmentStart)]

theorem path_clear_iff {data : List Char} {start schemeEnd stop limit d : ℕ}
    (hsep : separatorOf (data.drop start) = some d)
    (hfirst : (findFirstOf ['?', '#'] data).getD data.length = limit) (hstop : limit ≤ stop)
    (hquery : limit < start ∨ start + d < limit) :
    (min (authorityEndOf data schemeEnd start stop) limit < start ∨
        start + d < min (authorityEndOf data schemeEnd start stop) limit) ↔
      ((∃ x ∈ data.take start, x ∈ ['?', '#']) ∨ hasUrnScheme data schemeEnd = true ∨
        (data.drop start)[d]? ≠ some '[' ∨ '@' ∈ data.drop start ∨
        '/' ∉ (data.drop start).take d) := by
  have hlength := lt_of_separatorOf hsep
  rw [List.length_drop] at hlength
  have hstart : start < data.length := by omega
  have hle : start ≤ authorityEndOf data schemeEnd start stop := le_authorityEndOf hstart
  rw [← first_lt_iff hstart.le, hfirst]
  rcases hquery with hlt | hgt
  · exact iff_of_true (.inl (min_lt_of_right_lt hlt)) (.inl hlt)
  · rw [← authorityEnd_clear_iff hsep (hgt.trans_le hstop)]
    omega

theorem foundInFront_iff (data : List Char) (d : ℕ) :
    FoundInFront data d ↔
      separatorOf (data.drop (schemeOf data).authorityStart) = some d ∧
        ∀ limit ∈ limits data, limit < (schemeOf data).authorityStart ∨
          (schemeOf data).authorityStart + d < limit := by
  have hclear : ∀ chars : List Char, (∀ c ∈ [':', '[', '@'], c ∉ chars) →
      separatorOf (data.drop (schemeOf data).authorityStart) = some d →
      (((findFirstOf chars data).getD data.length < (schemeOf data).authorityStart ∨
          (schemeOf data).authorityStart + d < (findFirstOf chars data).getD data.length) ↔
        ClearOf chars data (schemeOf data).authorityStart d) := by
    intro chars hout hsep
    obtain ⟨c, hc, hmem⟩ := delimiter_of_separatorOf hsep
    rw [List.getElem?_drop] at hc
    exact first_clear_iff hc (hout c hmem)
  simp only [limits, List.forall_mem_cons, List.not_mem_nil, false_imp_iff, implies_true, and_true]
  constructor
  · rintro ⟨hsep, hfragment, hquery, hpath⟩
    rw [← hclear _ (by simp) hsep] at hfragment
    rw [← hclear _ (by simp) hsep, ← min_queryStart_fragmentStart] at hquery
    exact ⟨hsep, hfragment, hquery, (path_clear_iff hsep (min_queryStart_fragmentStart data).symm
      (min_le_left _ _) hquery).mpr hpath⟩
  · rintro ⟨hsep, hfragment, hquery, hpath⟩
    have hpath := (path_clear_iff hsep (min_queryStart_fragmentStart data).symm
      (min_le_left _ _) hquery).mp hpath
    rw [min_queryStart_fragmentStart] at hquery
    exact ⟨hsep, (hclear _ (by simp) hsep).mp hfragment, (hclear _ (by simp) hsep).mp hquery, hpath⟩

end Webpp.Uri
