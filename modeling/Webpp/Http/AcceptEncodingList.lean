import Webpp.Http.AcceptEntries

/-!
# What `Accept-Encoding` allows

A value that is invalid should allow nothing, and a valid one the codings that it names. The
list of the parser has more in it: what is in front of the first entry that it cannot read, and
`all` for each coding that it does not know, for a blank entry, and where no entry allows any
coding.
-/

namespace Webpp.Http

open Loop Webpp.Text Webpp.Text.Tokenizer

variable {r : AcceptEncoding} {type : EncodingTypes} {data : List Char} {a : CompressionAlgo}
  {piece : List Char}

/-! ## Names -/

/-- The names of the encodings that are known. -/
def codingNames : EncodingTypes → List (List Char)
  | .gzip => [['g', 'z', 'i', 'p'], ['x', '-', 'g', 'z', 'i', 'p']]
  | .compress =>
      [['c', 'o', 'm', 'p', 'r', 'e', 's', 's'], ['x', '-', 'c', 'o', 'm', 'p', 'r', 'e', 's', 's']]
  | .deflate => [['d', 'e', 'f', 'l', 'a', 't', 'e']]
  | .br => [['b', 'r']]
  | .identity | .all => []

/-- The coding is a name of the encoding, in any case of its letters. -/
def Names (type : EncodingTypes) (coding : List Char) : Prop :=
  coding.map toLowerCopy ∈ codingNames type

/-- The algorithm of a coding has it among its names, or is `all`. -/
theorem toKnownAlgo_names (coding : List Char) :
    Names (toKnownAlgo coding) coding ∨ toKnownAlgo coding = .all := by
  rw [toKnownAlgo]
  split
  · exact .inr rfl
  · repeat' split
    all_goals first
      | exact .inr rfl
      | (rename_i h
         rw [iequalsSl, beq_iff_eq] at h
         left
         rw [Names, h]
         decide)

theorem head?_of_map {coding name : List Char} {lower upper : Char}
    (h : coding.map toLowerCopy = lower :: name) (hupper : lower.toNat = upper.toNat + 32) :
    coding.head? = some upper ∨ coding.head? = some lower := by
  cases coding with
  | nil => cases h
  | cons c rest =>
      rcases eq_or_eq_of_toLowerCopy upper (List.cons.inj h).1 hupper with rfl | rfl
      · exact .inl rfl
      · exact .inr rfl

theorem toKnownAlgo_of_names {coding : List Char}
    (h : Names type coding) : toKnownAlgo coding = type := by
  have hswitch : ∀ {lower : Char} {name : List Char} (upper : Char),
      coding.map toLowerCopy = lower :: name → lower.toNat = upper.toNat + 32 →
      (∀ c, c = upper ∨ c = lower → coding.head? = some c → toKnownAlgo coding = type) →
      toKnownAlgo coding = type := by
    intro lower name upper hmap hupper hall
    rcases head?_of_map hmap hupper with hc | hc
    · exact hall upper (.inl rfl) hc
    · exact hall lower (.inr rfl) hc
  rw [Names] at h
  cases type with
  | identity => exact absurd h List.not_mem_nil
  | all => exact absurd h List.not_mem_nil
  | gzip =>
      rcases List.mem_pair.mp h with h | h
      · refine hswitch 'G' h rfl fun c hc hhead => ?_
        rcases hc with rfl | rfl
        · simp [toKnownAlgo, hhead, iequalsSl, h]
        · simp [toKnownAlgo, hhead, iequalsSl, h]
      · refine hswitch 'X' h rfl fun c hc hhead => ?_
        rcases hc with rfl | rfl
        · simp [toKnownAlgo, hhead, iequalsSl, h]
        · simp [toKnownAlgo, hhead, iequalsSl, h]
  | compress =>
      rcases List.mem_pair.mp h with h | h
      · refine hswitch 'C' h rfl fun c hc hhead => ?_
        rcases hc with rfl | rfl
        · simp [toKnownAlgo, hhead, iequalsSl, h]
        · simp [toKnownAlgo, hhead, iequalsSl, h]
      · refine hswitch 'X' h rfl fun c hc hhead => ?_
        rcases hc with rfl | rfl
        · simp [toKnownAlgo, hhead, iequalsSl, h]
        · simp [toKnownAlgo, hhead, iequalsSl, h]
  | deflate =>
      have h := List.mem_singleton.mp h
      refine hswitch 'D' h rfl fun c hc hhead => ?_
      rcases hc with rfl | rfl
      · simp [toKnownAlgo, hhead, iequalsSl, h]
      · simp [toKnownAlgo, hhead, iequalsSl, h]
  | br =>
      have h := List.mem_singleton.mp h
      refine hswitch 'B' h rfl fun c hc hhead => ?_
      rcases hc with rfl | rfl
      · simp [toKnownAlgo, hhead, iequalsSl, h]
      · simp [toKnownAlgo, hhead, iequalsSl, h]

/-! ## What a value says -/

/-- The list elements of a value; those that are blank are none. -/
def entries (data : List Char) : List (List Char) :=
  ((pieces data).map trimLws).filter fun e => e ≠ []

def IsEntry (e : List Char) : Prop := ∃ coding q, Entry rfc7231 e coding q

/-- The entry is for the coding, with a value that is not zero. -/
def Offers (e coding : List Char) : Prop := ∃ q, Entry rfc7231 e coding q ∧ isZero q = false

/-- What the parser should find out of a value. -/
structure AllowsRightly (data : List Char) (r : AcceptEncoding) : Prop where
  valid : r.isValid = true ↔ ∀ e ∈ entries data, IsEntry e
  known : ∀ type ∈ [EncodingTypes.gzip, .compress, .deflate, .br],
    r.isAllowed type = true ↔
      r.isValid = true ∧ ∃ e ∈ entries data, ∃ coding, Offers e coding ∧ Names type coding
  all : r.isAllowed .all = true ↔
    r.isValid = true ∧ ((∃ e ∈ entries data, Offers e ['*']) ∨ entries data = [])
  invalid : r.isValid = false → ∀ type, r.isAllowed type = false

/-- The parser ends, and finds that out. -/
def ParsesRightly (p : AcceptEncoding) : Prop := ∃ r, p.parse = .ok r ∧ AllowsRightly p.data r

/-- Every entry can be read, and `*` is offered, or there are no entries, or some coding is
offered, all that are offered are known, and there is no blank between the commas. -/
def SettlesCodings (data : List Char) : Prop :=
  (∀ e ∈ entries data, ∃ coding q, Entry rfc7231 e coding q ∧ q ≠ ['0', '.']) ∧
    ((∃ e ∈ entries data, Offers e ['*']) ∨ entries data = [] ∨
      (∃ e ∈ entries data, ∃ coding, Offers e coding) ∧
        (∀ e ∈ entries data, ∀ coding, Offers e coding → ∃ type, Names type coding) ∧
        ∀ piece ∈ pieces data, trimLws piece ≠ [])

/-- Some piece cannot be read, all in front of it have the value zero, and some entry is none of
RFC 7231. -/
def RefusesCodings (data : List Char) : Prop :=
  ∃ before piece behind, pieces data = before ++ piece :: behind ∧
    (∀ p ∈ before, ∃ coding q, Entry readable (trimLws p) coding q ∧ isZero q = true) ∧
    (¬ ∃ coding q, Entry readable (trimLws piece) coding q) ∧
    ∃ e ∈ entries data, ¬ IsEntry e

/-! ## The pieces -/

/-- What a piece adds to the list. -/
def allowedOf (piece : List Char) : Option CompressionAlgo :=
  match parseEntry (trimLws piece) with
  | .allow a => some a
  | _ => none

theorem allowedOf_eq_some_iff :
    allowedOf piece = some a ↔ parseEntry (trimLws piece) = .allow a := by
  rw [allowedOf]
  cases parseEntry (trimLws piece) with
  | invalid =>
      exact iff_of_false (fun h => Option.some_ne_none a h.symm)
        (fun h => EntryResult.noConfusion h)
  | skip =>
      exact iff_of_false (fun h => Option.some_ne_none a h.symm)
        (fun h => EntryResult.noConfusion h)
  | allow b => exact ⟨fun h => congrArg _ (Option.some_inj.mp h), fun h => by cases h; rfl⟩

theorem readPieces_append {before : List (List Char)}
    (h : ∀ p ∈ before, parseEntry (trimLws p) ≠ .invalid) (rest : List (List Char))
    (found : List CompressionAlgo) :
    readPieces (before ++ rest) found = readPieces rest (found ++ before.filterMap allowedOf) := by
  induction before generalizing found with
  | nil => rw [List.nil_append, List.filterMap_nil, List.append_nil]
  | cons p before ih =>
      have ih := ih fun p hp => h p (List.mem_cons_of_mem _ hp)
      rw [List.cons_append, readPieces]
      cases hp : parseEntry (trimLws p) with
      | invalid => exact absurd hp (h p List.mem_cons_self)
      | skip =>
          simp only
          rw [ih, List.filterMap_cons_none (by rw [allowedOf, hp])]
      | allow a =>
          simp only
          rw [ih, List.filterMap_cons_some (allowedOf_eq_some_iff.mpr hp), List.append_assoc,
            List.singleton_append]

theorem readPieces_of_valid {ps : List (List Char)}
    (h : ∀ p ∈ ps, parseEntry (trimLws p) ≠ .invalid) :
    readPieces ps [] = (true, ps.filterMap allowedOf) := by
  have happend := readPieces_append h [] []
  rw [List.append_nil, List.nil_append] at happend
  exact happend

theorem readPieces_of_invalid {before : List (List Char)}
    (h : ∀ p ∈ before, parseEntry (trimLws p) ≠ .invalid)
    (hpiece : parseEntry (trimLws piece) = .invalid) (behind : List (List Char)) :
    readPieces (before ++ piece :: behind) [] = (false, before.filterMap allowedOf) := by
  rw [readPieces_append h, readPieces, hpiece, List.nil_append]

/-- All pieces can be read, or there is a first one that cannot. -/
theorem valid_or_first (ps : List (List Char)) :
    (∀ p ∈ ps, parseEntry (trimLws p) ≠ .invalid) ∨
      ∃ before piece behind, ps = before ++ piece :: behind ∧
        (∀ p ∈ before, parseEntry (trimLws p) ≠ .invalid) ∧
        parseEntry (trimLws piece) = .invalid := by
  induction ps with
  | nil => exact .inl fun p hp => absurd hp List.not_mem_nil
  | cons p ps ih =>
      by_cases hp : parseEntry (trimLws p) = .invalid
      · exact .inr ⟨[], p, ps, rfl, fun p hp => absurd hp List.not_mem_nil, hp⟩
      · rcases ih with h | ⟨before, piece, behind, rfl, hbefore, hpiece⟩
        · exact .inl (List.forall_mem_cons.mpr ⟨hp, h⟩)
        · exact .inr ⟨p :: before, piece, behind, rfl, List.forall_mem_cons.mpr ⟨hp, hbefore⟩,
            hpiece⟩

theorem mem_entries {data e : List Char} :
    e ∈ entries data ↔ (∃ piece ∈ pieces data, trimLws piece = e) ∧ e ≠ [] := by
  rw [entries, List.mem_filter, List.mem_map, decide_eq_true_eq]

theorem parseEntry_nil : parseEntry [] = .allow { encoding := .all } := rfl

theorem parseEntry_of_offers {e coding : List Char} (h : Offers e coding) :
    ∃ k, parseEntry e = .allow ⟨toKnownAlgo coding, k⟩ := by
  obtain ⟨q, hentry, hzero⟩ := h
  have hq : q ≠ ['0', '.'] := by
    rintro rfl
    exact Bool.noConfusion hzero
  obtain ⟨k, hk⟩ := entryResult_of_readable hentry.loose.isQvalue hq coding
  rw [if_neg (by rw [hzero]; exact Bool.false_ne_true)] at hk
  exact ⟨k, (parseEntry_of_entry hentry.loose).trans hk⟩

theorem offers_of_parseEntry {e coding q : List Char}
    (hentry : Entry rfc7231 e coding q) (h : parseEntry e = .allow a) :
    Offers e coding ∧ a.encoding = toKnownAlgo coding := by
  have hresult := parseEntry_of_entry hentry.loose
  rw [h] at hresult
  have hq : q ≠ ['0', '.'] := by
    rintro rfl
    rw [(entryResult_eq_invalid_iff hentry.loose.isQvalue).mpr rfl] at hresult
    cases hresult
  obtain ⟨k, hk⟩ := entryResult_of_readable hentry.loose.isQvalue hq coding
  rw [hk] at hresult
  cases hzero : isZero q with
  | true =>
      rw [hzero, if_pos rfl] at hresult
      cases hresult
  | false =>
      rw [hzero, if_neg Bool.false_ne_true, EntryResult.allow.injEq] at hresult
      exact ⟨⟨q, hentry, hzero⟩, congrArg CompressionAlgo.encoding hresult⟩

theorem parseEntry_ne_invalid_iff (piece : List Char) :
    parseEntry (trimLws piece) ≠ .invalid ↔
      ∃ coding q, Entry readable (trimLws piece) coding q := by
  constructor
  · obtain ⟨-, -, -, -, -, htrim⟩ := exists_trimLws piece
    exact exists_readable htrim
  · rintro ⟨coding, q, h⟩ hinvalid
    obtain ⟨hloose, hq⟩ := h.loose_of_readable
    rw [parseEntry_of_entry hloose] at hinvalid
    exact hq ((entryResult_eq_invalid_iff hloose.isQvalue).mp hinvalid)

theorem allowedOf_eq_none_iff {piece coding q : List Char}
    (h : Entry readable (trimLws piece) coding q) :
    allowedOf piece = none ↔ isZero q = true := by
  obtain ⟨hloose, hq⟩ := h.loose_of_readable
  obtain ⟨k, hk⟩ := entryResult_of_readable hloose.isQvalue hq coding
  rw [allowedOf, parseEntry_of_entry hloose, hk]
  cases isZero q with
  | true => exact iff_of_true rfl rfl
  | false => exact iff_of_false (Option.some_ne_none _) Bool.false_ne_true

/-! ## Values that can be read -/

section Valid

variable {p : AcceptEncoding}

theorem parse_of_valid (hquote : '"' ∉ p.data)
    (h : ∀ piece ∈ pieces p.data, parseEntry (trimLws piece) ≠ .invalid) :
    p.parse = .ok { p with
      allowedEncodings := if (pieces p.data).filterMap allowedOf = [] then [{ encoding := .all }]
        else (pieces p.data).filterMap allowedOf ++ [{ encoding := .identity }]
      isValid := true } := by
  rw [AcceptEncoding.parse_eq hquote, readPieces_of_valid h, if_pos rfl]

/-- The list of a value that can be read has `all` where it would be empty. -/
theorem exists_encoding_iff {found : List CompressionAlgo} (htype : type ≠ .identity) :
    (∃ a ∈ (if found = [] then [{ encoding := .all }]
        else found ++ [{ encoding := .identity }] : List CompressionAlgo), a.encoding = type) ↔
      (∃ a ∈ found, a.encoding = type) ∨ found = [] ∧ type = .all := by
  by_cases hnil : found = []
  · rw [if_pos hnil, hnil]
    simp [eq_comm]
  · rw [if_neg hnil]
    simp only [List.mem_append, List.mem_singleton, or_and_right, exists_or, exists_eq_left]
    rw [or_iff_left htype.symm, or_iff_left (fun h => hnil h.1)]

theorem isAllowed_of_valid (hquote : '"' ∉ p.data)
    (h : ∀ piece ∈ pieces p.data, parseEntry (trimLws piece) ≠ .invalid)
    (hr : p.parse = .ok r) (htype : type ≠ .identity) :
    r.isAllowed type = true ↔
      (∃ piece ∈ pieces p.data, ∃ a, parseEntry (trimLws piece) = .allow a ∧ a.encoding = type) ∨
        (∀ piece ∈ pieces p.data, allowedOf piece = none) ∧ type = .all := by
  rw [parse_of_valid hquote h, Except.ok.injEq] at hr
  rw [← hr, AcceptEncoding.isAllowed_iff, exists_encoding_iff htype, List.filterMap_eq_nil_iff]
  refine or_congr_left ?_
  constructor
  · rintro ⟨a, ha, hencoding⟩
    obtain ⟨piece, hpiece, hallowed⟩ := List.mem_filterMap.mp ha
    exact ⟨piece, hpiece, a, allowedOf_eq_some_iff.mp hallowed, hencoding⟩
  · rintro ⟨piece, hpiece, a, hallow, hencoding⟩
    exact ⟨a, List.mem_filterMap.mpr ⟨piece, hpiece, allowedOf_eq_some_iff.mpr hallow⟩, hencoding⟩

/-- Where all entries are of RFC 7231 and none has the value `0.`, all pieces can be read. -/
theorem valid_of_entries
    (h : ∀ e ∈ entries data, ∃ coding q, Entry rfc7231 e coding q ∧ q ≠ ['0', '.']) :
    ∀ piece ∈ pieces data, parseEntry (trimLws piece) ≠ .invalid := by
  intro piece hpiece
  by_cases hnil : trimLws piece = []
  · rw [hnil, parseEntry_nil]
    exact fun h => EntryResult.noConfusion h
  · obtain ⟨coding, q, hentry, hq⟩ := h _ (mem_entries.mpr ⟨⟨piece, hpiece, rfl⟩, hnil⟩)
    rw [parseEntry_of_entry hentry.loose, ne_eq,
      entryResult_eq_invalid_iff hentry.loose.isQvalue]
    exact hq

theorem entries_of_valid (h : ∀ piece ∈ pieces data, parseEntry (trimLws piece) ≠ .invalid)
    (hentries : ∀ e ∈ entries data, IsEntry e) :
    ∀ e ∈ entries data, ∃ coding q, Entry rfc7231 e coding q ∧ q ≠ ['0', '.'] := by
  intro e he
  obtain ⟨coding, q, hentry⟩ := hentries e he
  obtain ⟨⟨piece, hpiece, rfl⟩, -⟩ := mem_entries.mp he
  refine ⟨coding, q, hentry, fun hq => h piece hpiece ?_⟩
  rw [parseEntry_of_entry hentry.loose]
  exact (entryResult_eq_invalid_iff hentry.loose.isQvalue).mpr hq

/-- What the pieces of a list of entries allow is offered by an entry, or is `all` for a
blank. -/
theorem offered_of_allow (hentries : ∀ e ∈ entries data, IsEntry e) (hpiece : piece ∈ pieces data)
    (h : parseEntry (trimLws piece) = .allow a) :
    (trimLws piece = [] ∧ a.encoding = .all) ∨
      trimLws piece ∈ entries data ∧ ∃ coding, Offers (trimLws piece) coding ∧
        a.encoding = toKnownAlgo coding := by
  by_cases hnil : trimLws piece = []
  · rw [hnil, parseEntry_nil, EntryResult.allow.injEq] at h
    exact .inl ⟨hnil, (congrArg CompressionAlgo.encoding h).symm⟩
  · have he := mem_entries.mpr ⟨⟨piece, hpiece, rfl⟩, hnil⟩
    obtain ⟨coding, q, hentry⟩ := hentries _ he
    exact .inr ⟨he, coding, offers_of_parseEntry hentry h⟩

theorem allow_of_offers {data e coding : List Char} (he : e ∈ entries data)
    (hoffers : Offers e coding) :
    ∃ piece ∈ pieces data, ∃ a, parseEntry (trimLws piece) = .allow a ∧
      a.encoding = toKnownAlgo coding := by
  obtain ⟨⟨piece, hpiece, rfl⟩, -⟩ := mem_entries.mp he
  obtain ⟨k, hk⟩ := parseEntry_of_offers hoffers
  exact ⟨piece, hpiece, _, hk, rfl⟩

theorem known_of_valid (hquote : '"' ∉ p.data)
    (h : ∀ piece ∈ pieces p.data, parseEntry (trimLws piece) ≠ .invalid)
    (hentries : ∀ e ∈ entries p.data, IsEntry e) (hr : p.parse = .ok r)
    (htype : type ≠ .identity) (hall : type ≠ .all) :
    r.isAllowed type = true ↔
      ∃ e ∈ entries p.data, ∃ coding, Offers e coding ∧ Names type coding := by
  rw [isAllowed_of_valid hquote h hr htype, or_iff_left (fun h => hall h.2)]
  constructor
  · rintro ⟨piece, hpiece, a, hallow, rfl⟩
    rcases offered_of_allow hentries hpiece hallow with ⟨-, ha⟩ | ⟨he, coding, hoffers, ha⟩
    · exact absurd ha hall
    · refine ⟨_, he, coding, hoffers, ?_⟩
      rw [ha] at hall ⊢
      exact (toKnownAlgo_names coding).resolve_right hall
  · rintro ⟨e, he, coding, hoffers, hnames⟩
    obtain ⟨piece, hpiece, a, hallow, ha⟩ := allow_of_offers he hoffers
    exact ⟨piece, hpiece, a, hallow, ha.trans (toKnownAlgo_of_names hnames)⟩

/-- `all` is allowed for what is no preference, and for what is not known. -/
theorem all_of_valid (hquote : '"' ∉ p.data)
    (h : ∀ piece ∈ pieces p.data, parseEntry (trimLws piece) ≠ .invalid)
    (hentries : ∀ e ∈ entries p.data, IsEntry e) (hr : p.parse = .ok r) :
    r.isAllowed .all = false ↔
      (∃ e ∈ entries p.data, ∃ coding, Offers e coding) ∧
        (∀ e ∈ entries p.data, ∀ coding, Offers e coding → ∃ type, Names type coding) ∧
        ∀ piece ∈ pieces p.data, trimLws piece ≠ [] := by
  rw [← Bool.not_eq_true, isAllowed_of_valid hquote h hr (by decide)]
  constructor
  · intro hnot
    have hno : ∀ piece ∈ pieces p.data, ∀ a, parseEntry (trimLws piece) = .allow a →
        a.encoding ≠ .all := fun piece hpiece a hallow ha =>
      hnot (.inl ⟨piece, hpiece, a, hallow, ha⟩)
    refine ⟨?_, fun e he coding hoffers => ?_, fun piece hpiece hnil => ?_⟩
    · have hsome : ¬ ∀ piece ∈ pieces p.data, allowedOf piece = none := fun hnone =>
        hnot (.inr ⟨hnone, rfl⟩)
      push Not at hsome
      obtain ⟨piece, hpiece, hne⟩ := hsome
      obtain ⟨a, ha⟩ := Option.ne_none_iff_exists'.mp hne
      have hallow := allowedOf_eq_some_iff.mp ha
      rcases offered_of_allow hentries hpiece hallow with ⟨-, hall⟩ | ⟨he, coding, hoffers, -⟩
      · exact absurd hall (hno piece hpiece a hallow)
      · exact ⟨_, he, coding, hoffers⟩
    · obtain ⟨piece, hpiece, a, hallow, ha⟩ := allow_of_offers he hoffers
      refine ⟨toKnownAlgo coding, (toKnownAlgo_names coding).resolve_right fun hall => ?_⟩
      exact hno piece hpiece a hallow (ha.trans hall)
    · refine hno piece hpiece { encoding := .all } ?_ rfl
      rw [hnil, parseEntry_nil]
  · rintro ⟨⟨e, he, coding, hoffers⟩, hknown, hblank⟩ (⟨piece, hpiece, a, hallow, ha⟩ | ⟨hnone, -⟩)
    · rcases offered_of_allow hentries hpiece hallow with ⟨hnil, -⟩ | ⟨he, coding, hoffers, ha'⟩
      · exact hblank piece hpiece hnil
      · obtain ⟨type, htype⟩ := hknown _ he coding hoffers
        have htype' : type = .all := by
          rw [← toKnownAlgo_of_names htype, ← ha', ha]
        rw [htype'] at htype
        exact List.not_mem_nil htype
    · obtain ⟨piece, hpiece, a, hallow, -⟩ := allow_of_offers he hoffers
      have hsome := allowedOf_eq_some_iff.mpr hallow
      rw [hnone piece hpiece] at hsome
      cases hsome

theorem not_all_of_settled (h : (∃ e ∈ entries data, Offers e ['*']) ∨ entries data = []) :
    ¬ ((∃ e ∈ entries data, ∃ coding, Offers e coding) ∧
      (∀ e ∈ entries data, ∀ coding, Offers e coding → ∃ type, Names type coding) ∧
      ∀ piece ∈ pieces data, trimLws piece ≠ []) := by
  rintro ⟨⟨e, he, -⟩, hknown, -⟩
  rcases h with ⟨e, he, hoffers⟩ | hnil
  · obtain ⟨type, htype⟩ := hknown e he _ hoffers
    have hstar : toKnownAlgo ['*'] = type := toKnownAlgo_of_names htype
    rw [← hstar] at htype
    exact List.not_mem_nil htype
  · rw [hnil] at he
    exact List.not_mem_nil he

theorem allowsRightly_of_valid (hquote : '"' ∉ p.data)
    (h : ∀ piece ∈ pieces p.data, parseEntry (trimLws piece) ≠ .invalid)
    (hr : p.parse = .ok r) : AllowsRightly p.data r ↔ SettlesCodings p.data := by
  have hvalid : r.isValid = true := by
    have hparse := parse_of_valid hquote h
    rw [hr, Except.ok.injEq] at hparse
    rw [hparse]
  constructor
  · intro hright
    have hentries := hright.valid.mp hvalid
    refine ⟨entries_of_valid h hentries, ?_⟩
    rw [← or_assoc]
    by_cases hstar : (∃ e ∈ entries p.data, Offers e ['*']) ∨ entries p.data = []
    · exact .inl hstar
    · refine .inr ((all_of_valid hquote h hentries hr).mp ?_)
      rw [← Bool.not_eq_true, hright.all]
      exact fun h => hstar h.2
  · rintro ⟨hrfc, hall⟩
    have hentries : ∀ e ∈ entries p.data, IsEntry e := by
      intro e he
      obtain ⟨coding, q, hentry, -⟩ := hrfc e he
      exact ⟨coding, q, hentry⟩
    refine ⟨iff_of_true hvalid hentries, fun type htype => ?_, ?_, fun hinvalid => ?_⟩
    · rw [and_iff_right hvalid]
      refine known_of_valid hquote h hentries hr ?_ ?_
      · rintro rfl
        exact absurd htype (by decide)
      · rintro rfl
        exact absurd htype (by decide)
    · rw [and_iff_right hvalid, ← not_iff_not, Bool.not_eq_true,
        all_of_valid hquote h hentries hr]
      rw [← or_assoc] at hall
      constructor
      · exact fun hknown hstar => not_all_of_settled hstar hknown
      · exact fun hstar => hall.resolve_left hstar
    · rw [hvalid] at hinvalid
      exact Bool.noConfusion hinvalid

end Valid

/-! ## Values that cannot be read -/

section Invalid

variable {p : AcceptEncoding} {before behind : List (List Char)} {piece : List Char}

/-- The pieces in front of the first one that cannot be read are taken up. -/
theorem parse_of_invalid (hquote : '"' ∉ p.data)
    (hsplit : pieces p.data = before ++ piece :: behind)
    (hbefore : ∀ q ∈ before, parseEntry (trimLws q) ≠ .invalid)
    (hpiece : parseEntry (trimLws piece) = .invalid) :
    p.parse = .ok { p with
      allowedEncodings := before.filterMap allowedOf
      isValid := false } := by
  have hparse := AcceptEncoding.parse_eq hquote
  rw [hsplit, readPieces_of_invalid hbefore hpiece behind, if_neg Bool.false_ne_true] at hparse
  exact hparse

theorem refusesCodings_of_right (hsplit : pieces p.data = before ++ piece :: behind)
    (hbefore : ∀ q ∈ before, parseEntry (trimLws q) ≠ .invalid)
    (hpiece : parseEntry (trimLws piece) = .invalid)
    (hinvalid : r.isValid = false) (hallowed : r.allowedEncodings = before.filterMap allowedOf)
    (hright : AllowsRightly p.data r) : RefusesCodings p.data := by
  refine ⟨before, piece, behind, hsplit, fun q hq => ?_, ?_, ?_⟩
  · obtain ⟨coding, value, hentry⟩ := (parseEntry_ne_invalid_iff q).mp (hbefore q hq)
    refine ⟨coding, value, hentry, (allowedOf_eq_none_iff hentry).mp ?_⟩
    rw [Option.eq_none_iff_forall_ne_some]
    intro a ha
    have htrue : r.isAllowed a.encoding = true := by
      rw [AcceptEncoding.isAllowed_iff, hallowed]
      exact ⟨a, List.mem_filterMap.mpr ⟨q, hq, ha⟩, rfl⟩
    rw [hright.invalid hinvalid] at htrue
    exact Bool.noConfusion htrue
  · rw [← parseEntry_ne_invalid_iff, not_not]
    exact hpiece
  · by_contra hnone
    push Not at hnone
    have hvalid := hright.valid.mpr hnone
    rw [hinvalid] at hvalid
    exact Bool.noConfusion hvalid

theorem exists_right_of_refuses (hquote : '"' ∉ p.data) (h : RefusesCodings p.data) :
    ParsesRightly p := by
  obtain ⟨before, piece, behind, hsplit, hzero, hunreadable, e, he, hentry⟩ := h
  have hbefore : ∀ q ∈ before, parseEntry (trimLws q) ≠ .invalid := by
    intro q hq
    obtain ⟨coding, value, hreadable, -⟩ := hzero q hq
    exact (parseEntry_ne_invalid_iff q).mpr ⟨coding, value, hreadable⟩
  have hpiece : parseEntry (trimLws piece) = .invalid :=
    by_contra fun hne => hunreadable ((parseEntry_ne_invalid_iff piece).mp hne)
  have hnil : before.filterMap allowedOf = [] := by
    rw [List.filterMap_eq_nil_iff]
    intro q hq
    obtain ⟨coding, value, hreadable, hzero'⟩ := hzero q hq
    exact (allowedOf_eq_none_iff hreadable).mpr hzero'
  have hparse := parse_of_invalid hquote hsplit hbefore hpiece
  rw [hnil] at hparse
  have hnone : ∀ type, AcceptEncoding.isAllowed type
      { p with allowedEncodings := [], isValid := false } = false := fun type => rfl
  refine ⟨_, hparse, ?_, fun type _ => ?_, ?_, fun _ type => hnone type⟩
  · exact iff_of_false Bool.false_ne_true (fun hall => hentry (hall e he))
  · rw [hnone]
    exact iff_of_false Bool.false_ne_true (fun h => Bool.noConfusion h.1)
  · rw [hnone]
    exact iff_of_false Bool.false_ne_true (fun h => Bool.noConfusion h.1)

end Invalid

/-! ## All values -/

/-- A value is treated rightly exactly when it settles what is allowed, or is refused at once. -/
theorem parsesRightly_iff (p : AcceptEncoding) (hquote : '"' ∉ p.data) :
    ParsesRightly p ↔ SettlesCodings p.data ∨ RefusesCodings p.data := by
  rcases valid_or_first (pieces p.data) with
    hvalid | ⟨before, piece, behind, hsplit, hbefore, hpiece⟩
  · have hno : ¬ RefusesCodings p.data := by
      rintro ⟨before, piece, behind, hsplit, -, hunreadable, -⟩
      have hmem : piece ∈ pieces p.data := by
        rw [hsplit]
        exact List.mem_append_right _ List.mem_cons_self
      exact hunreadable ((parseEntry_ne_invalid_iff piece).mp (hvalid piece hmem))
    rw [or_iff_left hno]
    have hparse := parse_of_valid hquote hvalid
    constructor
    · rintro ⟨r, hr, hright⟩
      exact (allowsRightly_of_valid hquote hvalid hr).mp hright
    · exact fun h => ⟨_, hparse, (allowsRightly_of_valid hquote hvalid hparse).mpr h⟩
  · have hmem : piece ∈ pieces p.data := by
      rw [hsplit]
      exact List.mem_append_right _ List.mem_cons_self
    have hno : ¬ SettlesCodings p.data := fun h => valid_of_entries h.1 piece hmem hpiece
    rw [or_iff_right hno]
    constructor
    · rintro ⟨r, hr, hright⟩
      rw [parse_of_invalid hquote hsplit hbefore hpiece, Except.ok.injEq] at hr
      exact refusesCodings_of_right hsplit hbefore hpiece (by rw [← hr]) (by rw [← hr]) hright
    · exact exists_right_of_refuses hquote

theorem parsesRightly_iff_gzip :
    '"' ∉ ['g', 'z', 'i', 'p'] ∧
      (ParsesRightly { data := ['g', 'z', 'i', 'p'] } ↔
        SettlesCodings ['g', 'z', 'i', 'p'] ∨ RefusesCodings ['g', 'z', 'i', 'p']) :=
  ⟨by decide, parsesRightly_iff { data := ['g', 'z', 'i', 'p'] } (by decide)⟩

/-- `gzip, a b` is invalid and allows `gzip`. -/
theorem not_parsesRightly_gzip : ¬ ∀ p : AcceptEncoding, '"' ∉ p.data → ParsesRightly p := by
  intro h
  let data : List Char := ['g', 'z', 'i', 'p', ',', ' ', 'a', ' ', 'b']
  obtain ⟨r, hr, hright⟩ := h { data := data } (by decide)
  have hparse : AcceptEncoding.parse { data := data } =
      .ok ⟨data, [{ encoding := .gzip }], false⟩ := rfl
  rw [hparse, Except.ok.injEq] at hr
  have hgzip := hright.invalid (by rw [← hr]) .gzip
  rw [← hr] at hgzip
  exact absurd hgzip (by decide)

end Webpp.Http
