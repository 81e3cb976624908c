import Mathlib.Data.List.Destutter
import Webpp.Foundation.StableSort

/-!
# Sorting, then dropping equal neighbours

A list is sorted by a key, in any order of elements with the same key, and of neighbours in
one class the last is kept. Elements of one class have one key. Every class keeps its last
element, whatever the sort makes of equal keys, exactly when a class with several elements is
alone with its key and all of them are equal.
-/

namespace AdjacentUnique

section Unique

variable {α γ : Type*} (same : α → α → Bool)

def Differ (a b : α) : Prop := same a b = false

instance : DecidableRel (Differ same) := fun a b => inferInstanceAs (Decidable (same a b = false))

/-- Of neighbours that are the same, the last is kept. -/
def keepLast (l : List α) : List α := (l.reverse.destutter (Differ same)).reverse

variable {same} {cls : α → γ} (hsame : ∀ a b, same a b = true ↔ cls a = cls b)

include hsame

theorem differ_iff {a b : α} : Differ same a b ↔ cls a ≠ cls b := by
  rw [Differ, ← Bool.not_eq_true, hsame]

theorem destutter'_append {a b : α} {l r : List α}
    (hlast : ∀ z ∈ (a :: l).getLast?, cls z ≠ cls b) :
    (l ++ b :: r).destutter' (Differ same) a =
      l.destutter' (Differ same) a ++
        r.destutter' (Differ same) b := by
  induction l generalizing a with
  | nil =>
      have hab : Differ same a b := (differ_iff hsame).mpr (hlast a rfl)
      rw [List.nil_append, List.destutter'_cons_pos r hab]
      rfl
  | cons x l ih =>
      by_cases hax : Differ same a x
      · rw [List.cons_append, List.destutter'_cons_pos _ hax, List.destutter'_cons_pos _ hax,
          ih (by rw [List.getLast?_cons_cons] at hlast; exact hlast), List.cons_append]
      · have hcls : cls a = cls x := by_contra fun hne => hax ((differ_iff hsame).mpr hne)
        rw [List.cons_append, List.destutter'_cons_neg _ hax, List.destutter'_cons_neg _ hax]
        refine ih fun z hz => ?_
        cases l with
        | nil =>
            have hza : a = z := Option.mem_some_iff.mp hz
            rw [← hza, hcls]
            exact hlast x rfl
        | cons y l =>
            rw [List.getLast?_cons_cons] at hlast hz
            exact hlast z (by rw [List.getLast?_cons_cons]; exact hz)

theorem destutter'_same {a : α} {l : List α} (h : ∀ b ∈ l, cls b = cls a) :
    l.destutter' (Differ same) a = [a] := by
  induction l with
  | nil => rfl
  | cons b l ih =>
      have hab : ¬ Differ same a b := by
        rw [differ_iff hsame]
        exact fun hne => hne (h b List.mem_cons_self).symm
      rw [List.destutter'_cons_neg _ hab]
      exact ih fun c hc => h c (List.mem_cons_of_mem _ hc)

theorem keepLast_append {y z : α} {l r : List α} (h : cls y ≠ cls z) :
    keepLast same (l ++ [y] ++ z :: r) =
      keepLast same (l ++ [y]) ++ keepLast same (z :: r) := by
  have hrev : (l ++ [y] ++ z :: r).reverse = (z :: r).reverse ++ y :: l.reverse := by
    simp
  have hrev' : (l ++ [y]).reverse = y :: l.reverse := by simp
  rw [keepLast, keepLast, keepLast, hrev, hrev', ← List.reverse_append]
  congr 1
  obtain ⟨a, t, hat⟩ := List.exists_cons_of_ne_nil
    (show (z :: r).reverse ≠ [] by simp)
  have hlast : (a :: t).getLast? = some z := by
    rw [← hat, List.getLast?_reverse]
    rfl
  rw [hat, List.cons_append, List.destutter_cons', List.destutter_cons', List.destutter_cons']
  refine destutter'_append hsame fun w hw => ?_
  rw [hlast, Option.mem_some_iff] at hw
  rw [← hw]
  exact h.symm

theorem keepLast_same {a : α} {l : List α} (h : ∀ b ∈ l, cls b = cls a) :
    keepLast same (l ++ [a]) = [a] := by
  rw [keepLast, List.reverse_append, List.reverse_singleton, List.singleton_append,
    List.destutter_cons', destutter'_same hsame (fun b hb => h b (List.mem_reverse.mp hb))]
  rfl

omit hsame in
theorem keepLast_sublist (l : List α) : (keepLast same l).Sublist l := by
  rw [keepLast]
  conv => rhs; rw [← List.reverse_reverse l]
  exact (List.destutter_sublist _ _).reverse

omit hsame in
theorem mem_keepLast_concat (l : List α) (a : α) : a ∈ keepLast same (l ++ [a]) := by
  rw [keepLast, List.mem_reverse, List.reverse_append, List.reverse_singleton,
    List.singleton_append, List.destutter_cons']
  exact List.mem_destutter' _ _ a

theorem exists_mem_keepLast {l : List α} {a : α} (h : a ∈ l) :
    ∃ b ∈ keepLast same l, cls b = cls a := by
  have hrun : ∀ (l : List α) (c d : α), d ∈ c :: l →
      ∃ b ∈ l.destutter' (Differ same) c, cls b = cls d := by
    intro l
    induction l with
    | nil =>
        intro c d hd
        exact ⟨c, List.mem_destutter' _ _ c, by rw [List.mem_singleton.mp hd]⟩
    | cons x l ih =>
        intro c d hd
        by_cases hcx : Differ same c x
        · rw [List.destutter'_cons_pos _ hcx]
          rcases List.mem_cons.mp hd with rfl | hd
          · exact ⟨d, List.mem_cons_self, rfl⟩
          · obtain ⟨b, hb, hcls⟩ := ih x d hd
            exact ⟨b, List.mem_cons_of_mem _ hb, hcls⟩
        · rw [List.destutter'_cons_neg _ hcx]
          have hcls : cls c = cls x := by_contra fun hne => hcx ((differ_iff hsame).mpr hne)
          rcases List.mem_cons.mp hd with rfl | hd
          · exact ih d d List.mem_cons_self
          · rcases List.mem_cons.mp hd with rfl | hd
            · obtain ⟨b, hb, hb'⟩ := ih c c List.mem_cons_self
              exact ⟨b, hb, hb'.trans hcls⟩
            · exact ih c d (List.mem_cons_of_mem _ hd)
  cases hl : l.reverse with
  | nil => exact absurd (List.mem_reverse.mpr h) (by rw [hl]; exact List.not_mem_nil)
  | cons c t =>
      obtain ⟨b, hb, hcls⟩ := hrun t c a (by rw [← hl]; exact List.mem_reverse.mpr h)
      refine ⟨b, ?_, hcls⟩
      rw [keepLast, List.mem_reverse, hl, List.destutter_cons']
      exact hb

end Unique

/-! ## One class -/

section Classes

variable {α γ : Type*} [DecidableEq γ] (cls : α → γ)

/-- The elements in the class of `a`, in their order. -/
def classOf (a : α) (l : List α) : List α := l.filter (fun b => cls b = cls a)

/-- No class is twice in `r`, and each class of `l` has its last element there. -/
structure KeepsLast (l r : List α) : Prop where
  distinct : r.Pairwise (fun a b => cls a ≠ cls b)
  last : ∀ a ∈ l, ∃ b, (classOf cls a l).getLast? = some b ∧ classOf cls a r = [b]

variable {cls}

theorem classOf_eq_nil {a : α} {l : List α} (h : ∀ b ∈ l, cls b ≠ cls a) :
    classOf cls a l = [] :=
  List.filter_eq_nil_iff.mpr fun b hb => by simpa using h b hb

theorem classOf_append (a : α) (l r : List α) :
    classOf cls a (l ++ r) = classOf cls a l ++ classOf cls a r := List.filter_append ..

theorem mem_classOf {a b : α} {l : List α} : b ∈ classOf cls a l ↔ b ∈ l ∧ cls b = cls a := by
  rw [classOf, List.mem_filter, decide_eq_true_eq]

theorem classOf_of_forall {a : α} {l : List α} (h : ∀ b ∈ l, cls b = cls a) :
    classOf cls a l = l :=
  List.filter_eq_self.mpr fun b hb => by simpa using h b hb

theorem distinct_of_last {l r : List α} (hsub : ∀ a ∈ r, a ∈ l)
    (h : ∀ a ∈ l, ∃ b, classOf cls a r = [b]) : r.Pairwise (fun a b => cls a ≠ cls b) := by
  rw [List.pairwise_iff_forall_sublist]
  intro a b hab heq
  obtain ⟨c, hc⟩ := h a (hsub a (hab.subset List.mem_cons_self))
  have hfilter := hab.filter (fun b => cls b = cls a)
  rw [show r.filter (fun b => cls b = cls a) = [c] from hc] at hfilter
  have htwo : [a, b].filter (fun b => cls b = cls a) = [a, b] :=
    classOf_of_forall (a := a) (l := [a, b]) (by
      intro d hd
      rcases List.mem_pair.mp hd with rfl | rfl
      · rfl
      · exact heq.symm)
  rw [htwo] at hfilter
  exact absurd hfilter.length_le (by simp)

section Kept

variable {same : α → α → Bool} (hsame : ∀ a b, same a b = true ↔ cls a = cls b)

include hsame

theorem classOf_keepLast {a : α} {pre post group : List α}
    (hpre : ∀ b ∈ pre, cls b ≠ cls a) (hgroup : ∀ b ∈ group, cls b = cls a)
    (hpost : ∀ b ∈ post, cls b ≠ cls a) :
    classOf cls a (keepLast same (pre ++ (group ++ [a]) ++ post)) = [a] := by
  have hleft : ∀ l, (∀ b ∈ l, cls b ≠ cls a) → classOf cls a (keepLast same l) = [] :=
    fun l hl => classOf_eq_nil fun b hb => hl b ((keepLast_sublist l).subset hb)
  -- behind the class
  have htail : classOf cls a (keepLast same (group ++ [a] ++ post)) = [a] := by
    cases post with
    | nil =>
        rw [List.append_nil, keepLast_same hsame hgroup]
        exact classOf_of_forall fun b hb => by rw [List.mem_singleton.mp hb]
    | cons z post =>
        rw [keepLast_append hsame (hpost z List.mem_cons_self).symm, classOf_append,
          keepLast_same hsame hgroup, hleft _ hpost, List.append_nil]
        exact classOf_of_forall fun b hb => by rw [List.mem_singleton.mp hb]
  rcases List.eq_nil_or_concat pre with rfl | ⟨pre, y, rfl⟩
  · rw [List.nil_append]
    exact htail
  · have hy := hpre y (by simp)
    obtain ⟨b, t, hbt⟩ := List.exists_cons_of_ne_nil
      (show group ++ [a] ++ post ≠ [] by simp)
    have hb : cls b = cls a := by
      cases group with
      | nil =>
          rw [List.nil_append, List.singleton_append, List.cons.injEq] at hbt
          rw [hbt.1]
      | cons g group =>
          rw [List.cons_append, List.cons_append, List.cons.injEq] at hbt
          rw [← hbt.1]
          exact hgroup g List.mem_cons_self
    rw [List.concat_eq_append] at hpre
    rw [List.append_assoc, hbt, List.concat_eq_append, keepLast_append hsame (hb ▸ hy),
      classOf_append, ← hbt, hleft _ hpre, List.nil_append]
    exact htail

theorem length_classOf_keepLast {a a' b : α} (ha : cls a' = cls a) (hb : cls b ≠ cls a)
    (pre post : List α) :
    2 ≤ (classOf cls a (keepLast same (pre ++ [a] ++ b :: a' :: post))).length := by
  have hsplit : keepLast same (b :: a' :: post) =
      keepLast same [b] ++ keepLast same (a' :: post) :=
    keepLast_append hsame (l := []) (ha ▸ hb)
  rw [keepLast_append hsame hb.symm, hsplit, classOf_append, classOf_append, List.length_append,
    List.length_append]
  have hfirst : 0 < (classOf cls a (keepLast same (pre ++ [a]))).length :=
    List.length_pos_of_mem (mem_classOf.mpr ⟨mem_keepLast_concat pre a, rfl⟩)
  obtain ⟨c, hc, hcls⟩ := exists_mem_keepLast hsame (l := a' :: post) List.mem_cons_self
  have hthird : 0 < (classOf cls a (keepLast same (a' :: post))).length :=
    List.length_pos_of_mem (mem_classOf.mpr ⟨hc, hcls.trans ha⟩)
  omega

end Kept

/-! ## Sorted lists -/

section Sorted

open StableSort

variable {κ : Type*} [LinearOrder κ] {key : α → κ}

omit [DecidableEq γ] in
theorem exists_split_withKey {l : List α} (h : l.Pairwise (fun a b => key a ≤ key b)) (k : κ) :
    ∃ pre post, l = pre ++ withKey key k l ++ post ∧ (∀ b ∈ pre, key b ≠ k) ∧
      ∀ b ∈ post, key b ≠ k := by
  induction l with
  | nil => exact ⟨[], [], rfl, fun b hb => absurd hb List.not_mem_nil,
      fun b hb => absurd hb List.not_mem_nil⟩
  | cons a l ih =>
      rw [List.pairwise_cons] at h
      obtain ⟨pre, post, hl, hpre, hpost⟩ := ih h.2
      rcases lt_trichotomy (key a) k with hak | hak | hak
      · rw [withKey_cons_of_ne hak.ne]
        refine ⟨a :: pre, post, by rw [List.cons_append, List.cons_append, ← hl], ?_, hpost⟩
        intro b hb
        rcases List.mem_cons.mp hb with rfl | hb
        · exact hak.ne
        · exact hpre b hb
      · rw [withKey_cons_of_eq hak]
        cases pre with
        | nil =>
            rw [List.nil_append] at hl
            exact ⟨[], post, by rw [List.nil_append, List.cons_append, ← hl],
              fun b hb => absurd hb List.not_mem_nil, hpost⟩
        | cons c pre =>
            -- the next element is already greater, so no other one has the key
            have hc : c ∈ l := by
              rw [hl]
              exact List.mem_cons_self
            have hlt : k < key c := lt_of_le_of_ne (hak ▸ h.1 c hc)
              (hpre c List.mem_cons_self).symm
            have hcl := h.2
            rw [hl, List.cons_append, List.cons_append, List.pairwise_cons] at hcl
            have hnone : ∀ b ∈ l, key b ≠ k := by
              intro b hb
              rw [hl] at hb
              rcases List.mem_cons.mp hb with rfl | hb
              · exact hlt.ne'
              · exact (hlt.trans_le (hcl.1 b hb)).ne'
            have hnil : withKey key k l = [] :=
              List.filter_eq_nil_iff.mpr fun b hb => by simpa using hnone b hb
            exact ⟨[], l, by rw [hnil]; rfl, fun b hb => absurd hb List.not_mem_nil, hnone⟩
      · have hnone : ∀ b ∈ a :: l, key b ≠ k := by
          intro b hb
          rcases List.mem_cons.mp hb with rfl | hb
          · exact hak.ne'
          · exact (hak.trans_le (h.1 b hb)).ne'
        have hnil : withKey key k (a :: l) = [] :=
          List.filter_eq_nil_iff.mpr fun b hb => by simpa using hnone b hb
        exact ⟨[], a :: l, by rw [hnil]; rfl, fun b hb => absurd hb List.not_mem_nil, hnone⟩

/-- Two elements in one class are equal, and no other class has their key. -/
def Alone (cls : α → γ) (key : α → κ) (l : List α) (a b : α) : Prop :=
  cls a = cls b → a = b ∧ ∀ c ∈ l, key c = key a → cls c = cls a

variable {same : α → α → Bool} (hsame : ∀ a b, same a b = true ↔ cls a = cls b)
  (hkey : ∀ a b, cls a = cls b → key a = key b)

include hsame hkey

theorem classOf_keepLast_sorted {s group : List α} {b : α}
    (hs : s.Pairwise (fun a b => key a ≤ key b)) (hgroup : withKey key (key b) s = group ++ [b])
    (hcls : ∀ c ∈ s, key c = key b → cls c = cls b) :
    classOf cls b (keepLast same s) = [b] := by
  obtain ⟨pre, post, hsplit, hpre, hpost⟩ := exists_split_withKey hs (key b)
  rw [hgroup] at hsplit
  rw [hsplit]
  refine classOf_keepLast hsame (fun c hc h => hpre c hc (hkey c b h)) (fun c hc => ?_)
    (fun c hc h => hpost c hc (hkey c b h))
  have hmem : c ∈ withKey key (key b) s := by
    rw [hgroup]
    exact List.mem_append_left _ hc
  obtain ⟨hcs, hck⟩ := List.mem_filter.mp hmem
  exact hcls c hcs (of_decide_eq_true hck)

omit hkey in
theorem classOf_keepLast_single {l s : List α} {b : α} (hperm : s.Perm l)
    (hsingle : classOf cls b l = [b]) : classOf cls b (keepLast same s) = [b] := by
  have hclass : classOf cls b s = [b] := by
    have hp := hperm.filter (fun c => cls c = cls b)
    rw [show l.filter (fun c => cls c = cls b) = [b] from hsingle] at hp
    exact List.perm_singleton.mp hp
  obtain ⟨pre, post, hsplit, hpre, -, hpost⟩ := List.filter_eq_cons_iff.mp hclass
  have hnot : ∀ c ∈ pre, cls c ≠ cls b := fun c hc => by simpa using hpre c hc
  have hnot' : ∀ c ∈ post, cls c ≠ cls b := fun c hc => by
    simpa using List.filter_eq_nil_iff.mp hpost c hc
  have hkept := classOf_keepLast hsame hnot
    (fun c (hc : c ∈ []) => absurd hc List.not_mem_nil) hnot'
  rw [List.nil_append, List.append_assoc, List.singleton_append] at hkept
  rw [hsplit]
  exact hkept

theorem classOf_keepLast_equal {l s : List α} {b : α} (hperm : s.Perm l)
    (hs : s.Pairwise (fun a b => key a ≤ key b)) (hb : b ∈ l)
    (hequal : ∀ c ∈ classOf cls b l, c = b) (hall : ∀ c ∈ l, key c = key b → cls c = cls b) :
    classOf cls b (keepLast same s) = [b] := by
  have hbs : b ∈ withKey key (key b) s :=
    List.mem_filter.mpr ⟨hperm.mem_iff.mpr hb, decide_eq_true rfl⟩
  rcases List.eq_nil_or_concat' (withKey key (key b) s) with hnil | ⟨group, g, hg⟩
  · rw [hnil] at hbs
    exact absurd hbs List.not_mem_nil
  · obtain ⟨hgs, hgk⟩ := List.mem_filter.mp
      (show g ∈ withKey key (key b) s by
        rw [hg]
        exact List.mem_append_right _ List.mem_cons_self)
    have hgl := hperm.mem_iff.mp hgs
    have hgb : g = b := hequal g (mem_classOf.mpr ⟨hgl, hall g hgl (of_decide_eq_true hgk)⟩)
    rw [hgb] at hg
    exact classOf_keepLast_sorted hsame hkey hs hg
      (fun c hc hck => hall c (hperm.mem_iff.mp hc) hck)

theorem keepsLast_of_alone {l s : List α} (halone : l.Pairwise (Alone cls key l))
    (hperm : s.Perm l) (hs : s.Pairwise (fun a b => key a ≤ key b)) :
    KeepsLast cls l (keepLast same s) := by
  have hlast : ∀ a ∈ l, ∃ b, (classOf cls a l).getLast? = some b ∧
      classOf cls a (keepLast same s) = [b] := by
    intro a ha
    have hmem : a ∈ classOf cls a l := mem_classOf.mpr ⟨ha, rfl⟩
    rcases List.eq_nil_or_concat' (classOf cls a l) with hnil | ⟨others, b, hconcat⟩
    · rw [hnil] at hmem
      exact absurd hmem List.not_mem_nil
    · have hb : b ∈ l ∧ cls b = cls a :=
        mem_classOf.mp (by rw [hconcat]; exact List.mem_append_right _ List.mem_cons_self)
      have hclass : ∀ t, classOf cls b t = classOf cls a t := fun t => by
        rw [classOf, classOf, hb.2]
      refine ⟨b, by rw [hconcat, List.getLast?_concat], ?_⟩
      rw [← hclass]
      cases others with
      | nil => exact classOf_keepLast_single hsame hperm ((hclass l).trans hconcat)
      | cons x others =>
          have hpair := halone.sublist (List.filter_sublist (p := fun c => cls c = cls a))
          rw [show l.filter (fun c => cls c = cls a) = x :: others ++ [b] from hconcat,
            List.pairwise_append] at hpair
          have hequal : ∀ c ∈ x :: others, c = b ∧ ∀ d ∈ l, key d = key b → cls d = cls b := by
            intro c hc
            have hccls : cls c = cls a :=
              (mem_classOf.mp (by rw [hconcat]; exact List.mem_append_left _ hc)).2
            obtain ⟨rfl, h⟩ := hpair.2.2 c hc b List.mem_cons_self (hccls.trans hb.2.symm)
            exact ⟨rfl, h⟩
          refine classOf_keepLast_equal hsame hkey hperm hs hb.1 (fun c hc => ?_)
            (hequal x List.mem_cons_self).2
          rw [hclass, hconcat] at hc
          rcases List.mem_append.mp hc with h | h
          · exact (hequal c h).1
          · exact List.mem_singleton.mp h
  refine ⟨distinct_of_last (fun a ha => hperm.mem_iff.mp ((keepLast_sublist s).subset ha))
    (fun a ha => ?_), hlast⟩
  obtain ⟨b, -, hb⟩ := hlast a ha
  exact ⟨b, hb⟩

/-- If the last elements are kept for every order, no other class has the key of two elements: one
of it could be put between them. -/
theorem alone_of_forall {l : List α} (h : ∀ s, s.Perm l →
      s.Pairwise (fun a b => key a ≤ key b) → KeepsLast cls l (keepLast same s)) {x y : α}
    (hxy : [x, y].Sublist l) (hcls : cls x = cls y) :
    ∀ c ∈ l, key c = key x → cls c = cls x := by
  obtain ⟨rest, hrest⟩ := hxy.exists_perm_append
  rw [List.cons_append, List.singleton_append] at hrest
  have hx : x ∈ l := hxy.subset List.mem_cons_self
  intro c hc hck
  by_contra hne
  have hcrest : c ∈ rest := by
    have hmem := hrest.mem_iff.mp hc
    rcases List.mem_cons.mp hmem with rfl | hmem
    · exact absurd rfl hne
    · rcases List.mem_cons.mp hmem with rfl | hmem
      · exact absurd hcls.symm hne
      · exact hmem
  obtain ⟨left, right, rfl⟩ := List.append_of_mem hcrest
  have hl : (x :: c :: y :: (left ++ right)).Perm l := by
    refine List.Perm.trans ?_ hrest.symm
    exact ((List.Perm.swap y c _).trans (List.perm_middle.symm.cons y)).cons x
  have hsorted : (sortBy key (x :: c :: y :: (left ++ right))).Pairwise
      (fun a b => key a ≤ key b) := pairwise_sortBy _
  obtain ⟨pre, post, hsplit, -, -⟩ := exists_split_withKey hsorted (key x)
  rw [withKey_sortBy, withKey_cons_of_eq rfl, withKey_cons_of_eq hck,
    withKey_cons_of_eq (hkey y x hcls.symm)] at hsplit
  obtain ⟨b, -, hb⟩ := (h _ ((sortBy_perm _).trans hl) (pairwise_sortBy _)).last x hx
  have htwo := length_classOf_keepLast hsame hcls.symm hne pre
    (withKey key (key x) ((left ++ right)) ++ post)
  rw [hsplit] at hb
  simp only [List.append_assoc, List.cons_append, List.nil_append] at hb htwo
  rw [hb] at htwo
  exact absurd htwo (by simp)

theorem getLast?_of_forall {l : List α} (h : ∀ s, s.Perm l →
      s.Pairwise (fun a b => key a ≤ key b) → KeepsLast cls l (keepLast same s)) {x z : α}
    (hx : x ∈ l) (halone : ∀ c ∈ l, key c = key x → cls c = cls x) {rest : List α}
    (hz : (rest ++ [z]).Perm l) (hzx : cls z = cls x) :
    (classOf cls x l).getLast? = some z := by
  have hzkey : key z = key x := hkey z x hzx
  have hgroup : withKey key (key z) (sortBy key (rest ++ [z])) =
      withKey key (key z) rest ++ [z] := by
    rw [withKey_sortBy, withKey_append, withKey_cons_of_eq rfl]
    rfl
  have hkept := classOf_keepLast_sorted hsame hkey (pairwise_sortBy _) hgroup
    (fun c hc hck => by
      rw [hzx]
      exact halone c (hz.mem_iff.mp ((sortBy_perm _).mem_iff.mp hc)) (hck.trans hzkey))
  obtain ⟨b, hlast, hb⟩ := (h _ ((sortBy_perm _).trans hz) (pairwise_sortBy _)).last x hx
  rw [classOf, hzx] at hkept
  rw [classOf, hkept] at hb
  rw [hlast, (List.cons.injEq _ _ _ _ ▸ hb : z = b ∧ _).1]

/-- Sorting and dropping equal neighbours keeps the last element of each class, for every
order of equal keys, exactly when each class is single, or alone with its key and of equal
elements. -/
theorem forall_keepsLast_iff (l : List α) :
    (∀ s, s.Perm l → s.Pairwise (fun a b => key a ≤ key b) → KeepsLast cls l (keepLast same s)) ↔
      l.Pairwise (Alone cls key l) := by
  constructor
  · intro h
    rw [List.pairwise_iff_forall_sublist]
    intro x y hxy hcls
    obtain ⟨rest, hrest⟩ := hxy.exists_perm_append
    have hx : x ∈ l := hxy.subset List.mem_cons_self
    have halone := alone_of_forall hsame hkey h hxy hcls
    have hxlast := getLast?_of_forall hsame hkey h hx halone
      ((List.perm_append_singleton x (y :: rest)).trans hrest.symm) rfl
    have hylast := getLast?_of_forall hsame hkey h hx halone
      ((List.perm_append_singleton y (x :: rest)).trans
        ((List.Perm.swap x y rest).trans hrest.symm)) hcls.symm
    rw [hxlast] at hylast
    exact ⟨Option.some_inj.mp hylast, halone⟩
  · exact fun h s hperm hs => keepsLast_of_alone hsame hkey h hperm hs

end Sorted

end Classes

end AdjacentUnique
