import Webpp.Text.CharConv
import Webpp.Uri.SchemeCodes

/-!
# Texts of ports

`parse_port` reads a number, and stores the text that it has read without the zeros in front.
The text is the number's own unless there are tabs or newlines in it. No port is known by
`known_port` as 0, so that where none is known the number 0 is taken for the default.
-/

namespace Webpp.Uri

open ComponentEncoder Webpp.Text

variable {σ : Type}

/-- A text of digits, tabs and newlines. -/
def IsPortText (text : List Char) : Prop :=
  ∀ c ∈ text, isDigit c = true ∨ isTabOrNewline c = true

/-- The characters behind a port. -/
def portEnds : List Char := ['\\', '\x00', '/', '?', '#']

def EndsPort (rest : List Char) : Prop := ∀ c, rest.head? = some c → c ∈ portEnds

def portDigits (text : List Char) : List Char := text.filter isDigit

def portNumber (text : List Char) : ℕ := numeralValue (portDigits text)

/-- What is put into the port is there, until it is cleared. -/
structure KeepsPort (O : Output σ) : Prop where
  view_setValue : ∀ start stop out, O.view .port (O.setValue .port start stop out) =
    slice start stop
  view_clear : ∀ out, O.view .port (O.clear .port out) = []

theorem stringOutput_keepsPort : KeepsPort stringOutput where
  view_setValue _ _ _ := rfl
  view_clear _ := rfl

theorem viewOutput_keepsPort : KeepsPort viewOutput where
  view_setValue _ _ _ := rfl
  view_clear _ := rfl

theorem segregatedOutput_keepsPort : KeepsPort segregatedOutput where
  view_setValue _ _ _ := rfl
  view_clear _ := rfl

theorem segregatedViewOutput_keepsPort : KeepsPort segregatedViewOutput where
  view_setValue _ _ _ := rfl
  view_clear _ := rfl

/-! ## The accumulator -/

/-- The loop of `parse_port` with the 32 bits of `port_type`. -/
def portLoop32 (o : Options) : List Char → UInt32 → Ctx σ → Option UInt32 × Ctx σ
  | [], value, ctx => (some value, { ctx with pos := [] })
  | c :: pos, value, ctx =>
      if isDigit c then
        let value := value * 10
        let value := value + UInt32.ofNat (digitValue c)
        if value.toNat > maxPortNumber then (none, { ctx with pos := pos }.setError .portOutOfRange)
        else portLoop32 o pos value ctx
      else if c = '\\' ∨ c = '\x00' ∨ c = '/' ∨ c = '?' ∨ c = '#' then
        (some value, { ctx with pos := c :: pos })
      else if isTabOrNewline c ∧ o.ignoreTabsOrNewlines then
        portLoop32 o pos value (ctx.setWarning .invalidCharacter)
      else (none, { ctx with pos := c :: pos }.setError .portInvalid)

theorem toNat_mul_add {value : UInt32} (h : value.toNat ≤ maxPortNumber) {c : Char}
    (hc : isDigit c = true) :
    (value * 10 + UInt32.ofNat (digitValue c)).toNat = value.toNat * 10 + digitValue c := by
  have hlt := digitValue_lt hc
  rw [maxPortNumber] at h
  rw [UInt32.toNat_add, UInt32.toNat_mul, UInt32.toNat_ofNat']
  have hten : (10 : UInt32).toNat = 10 := rfl
  rw [hten]
  omega

theorem portLoop32_eq (o : Options) (pos : List Char) {value : UInt32}
    (h : value.toNat ≤ maxPortNumber) (ctx : Ctx σ) :
    (portLoop32 o pos value ctx).1.map UInt32.toNat = (portLoop o pos value.toNat ctx).1 ∧
      (portLoop32 o pos value ctx).2 = (portLoop o pos value.toNat ctx).2 := by
  induction pos generalizing value ctx with
  | nil => exact ⟨rfl, rfl⟩
  | cons c pos ih =>
      rw [portLoop32, portLoop]
      by_cases hc : isDigit c = true
      · rw [if_pos hc, if_pos hc]
        dsimp only
        rw [toNat_mul_add h hc]
        split
        · exact ⟨rfl, rfl⟩
        · rename_i hrange
          have hrange' : (value * 10 + UInt32.ofNat (digitValue c)).toNat ≤ maxPortNumber := by
            rw [toNat_mul_add h hc]
            exact Nat.not_lt.mp hrange
          have hnext := ih hrange' ctx
          rwa [toNat_mul_add h hc] at hnext
      · rw [if_neg hc, if_neg hc]
        split
        · exact ⟨rfl, rfl⟩
        · split
          · exact ih h _
          · exact ⟨rfl, rfl⟩

/-! ## The loop -/

section Loop

variable {text rest : List Char}

theorem IsPortText.tail {c : Char} (h : IsPortText (c :: text)) : IsPortText text :=
  (List.forall_mem_cons.mp h).2

theorem isDigit_of_isTabOrNewline {c : Char} (h : isTabOrNewline c = true) :
    isDigit c = false := by
  have hall : ∀ c ∈ ['\t', '\r', '\n'], isDigit c = false := by decide
  exact hall c (mem_of_isTabOrNewline h)

theorem portDigits_cons (c : Char) (text : List Char) :
    portDigits (c :: text) = if isDigit c then c :: portDigits text else portDigits text :=
  List.filter_cons

theorem portLoop_tab {c : Char} (hc : isTabOrNewline c = true) (pos : List Char) (value : ℕ)
    (ctx : Ctx σ) : portLoop standardUriParsingOptions (c :: pos) value ctx =
      portLoop standardUriParsingOptions pos value (ctx.setWarning .invalidCharacter) := by
  have hdigit : ¬isDigit c = true := by rw [isDigit_of_isTabOrNewline hc]; decide
  have hend : ¬(c = '\\' ∨ c = '\x00' ∨ c = '/' ∨ c = '?' ∨ c = '#') := by
    rintro (rfl | rfl | rfl | rfl | rfl) <;> exact absurd hc (by decide)
  rw [portLoop, if_neg hdigit, if_neg hend, if_pos ⟨hc, rfl⟩]

theorem portLoop_rest (hrest : EndsPort rest) (value : ℕ) (ctx : Ctx σ) :
    portLoop standardUriParsingOptions rest value ctx =
      (some value, { ctx with pos := rest }) := by
  cases rest with
  | nil => rfl
  | cons c rest =>
      have hc : c ∈ portEnds := hrest c rfl
      have hdigit : ∀ c ∈ portEnds, ¬isDigit c = true := by decide
      rw [portLoop, if_neg (hdigit c hc), if_pos (by simpa [portEnds] using hc)]

theorem portLoop_text (htext : IsPortText text) (hrest : EndsPort rest) {value : ℕ}
    (h : numeralFrom value (portDigits text) ≤ maxPortNumber) (ctx : Ctx σ) :
    ∃ ctx', portLoop standardUriParsingOptions (text ++ rest) value ctx =
        (some (numeralFrom value (portDigits text)), ctx') ∧
      ctx'.pos = rest ∧ ctx'.out = ctx.out := by
  induction text generalizing value ctx with
  | nil => exact ⟨{ ctx with pos := rest }, portLoop_rest hrest value ctx, rfl, rfl⟩
  | cons c text ih =>
      rw [portDigits_cons] at h ⊢
      rcases htext c List.mem_cons_self with hdigit | htab
      · rw [if_pos hdigit, numeralFrom_cons] at h ⊢
        have hrange : ¬value * 10 + digitValue c > maxPortNumber :=
          Nat.not_lt.mpr ((le_numeralFrom _ _).trans h)
        rw [List.cons_append, portLoop, if_pos hdigit, if_neg hrange]
        exact ih htext.tail h ctx
      · have hdigit : ¬isDigit c = true := by rw [isDigit_of_isTabOrNewline htab]; decide
        rw [if_neg hdigit] at h ⊢
        rw [List.cons_append, portLoop_tab htab]
        exact ih htext.tail h _

theorem portLoop_outOfRange (htext : IsPortText text) {value : ℕ} (hvalue : value ≤ maxPortNumber)
    (h : maxPortNumber < numeralFrom value (portDigits text)) (ctx : Ctx σ) :
    ∃ ctx', portLoop standardUriParsingOptions (text ++ rest) value ctx = (none, ctx') ∧
      ctx'.status.value = .portOutOfRange := by
  induction text generalizing value ctx with
  | nil => exact absurd h (Nat.not_lt.mpr hvalue)
  | cons c text ih =>
      rw [portDigits_cons] at h
      rcases htext c List.mem_cons_self with hdigit | htab
      · rw [if_pos hdigit, numeralFrom_cons] at h
        rw [List.cons_append, portLoop, if_pos hdigit]
        split
        · exact ⟨_, rfl, rfl⟩
        · rename_i hrange
          exact ih htext.tail (Nat.not_lt.mp hrange) h ctx
      · have hdigit : ¬isDigit c = true := by rw [isDigit_of_isTabOrNewline htab]; decide
        rw [if_neg hdigit] at h
        rw [List.cons_append, portLoop_tab htab]
        exact ih htext.tail hvalue h _

theorem skipLeadingZeros_text (hne : text ≠ []) (rest : List Char) :
    skipLeadingZeros rest (text ++ rest) = .ok (withoutZeros text ++ rest) := by
  induction text with
  | nil => exact absurd rfl hne
  | cons c text ih =>
      rw [List.cons_append, skipLeadingZeros, List.length_append]
      by_cases hnil : text = []
      · subst hnil
        rw [List.length_nil, Nat.zero_add, if_pos rfl]
        rfl
      · have hlength : ¬text.length + rest.length = rest.length := by
          have hpositive := List.length_pos_iff.mpr hnil
          omega
        rw [if_neg hlength]
        by_cases hzero : c = '0'
        · subst hzero
          rw [if_pos rfl, ih hnil, withoutZeros_zero hnil]
        · rw [if_neg hzero, withoutZeros_of_ne hzero]
          rfl

theorem skipLeadingZeros_rest (hrest : EndsPort rest) (hne : rest ≠ []) :
    skipLeadingZeros rest rest = .ok rest := by
  cases rest with
  | nil => exact absurd rfl hne
  | cons c rest =>
      have hzero : ∀ c ∈ portEnds, c ≠ '0' := by decide
      have hlength : ¬rest.length = (c :: rest).length := by rw [List.length_cons]; omega
      rw [skipLeadingZeros, if_neg hlength, if_neg (hzero c (hrest c rfl))]

end Loop

/-! ## `parse_port` -/

/-- What is to be left of a port: out of range, or its number in decimal, unless there is none
or it is the default. -/
structure ParsesPort (O : Output σ) (text : List Char) (ctx ctx' : Ctx σ) : Prop where
  outOfRange_iff : ctx'.status.value = .portOutOfRange ↔ maxPortNumber < portNumber text
  stored_nil_iff : portNumber text ≤ maxPortNumber →
    (O.view .port ctx'.out = [] ↔
      portDigits text = [] ∨ defaultPort (O.view .scheme ctx.out) = some (portNumber text))
  stored_eq : portNumber text ≤ maxPortNumber → O.view .port ctx'.out ≠ [] →
    O.view .port ctx'.out = Nat.toDigits 10 (portNumber text)
  accumulator :
    (portLoop32 standardUriParsingOptions ctx.pos 0 ctx).1.map UInt32.toNat =
        (portLoop standardUriParsingOptions ctx.pos 0 ctx).1 ∧
      (portLoop32 standardUriParsingOptions ctx.pos 0 ctx).2 =
        (portLoop standardUriParsingOptions ctx.pos 0 ctx).2

/-- The texts of which the right thing is left: where it is not the default and not out of
range, there are no tabs, and no number 0 of a scheme without default. -/
def PortStands (scheme text : List Char) : Prop :=
  maxPortNumber < portNumber text ∨ defaultPort scheme = some (portNumber text) ∨
    if defaultPort scheme = none ∧ portNumber text = 0 then portDigits text = []
    else ∀ c ∈ text, isTabOrNewline c = false

section Port

variable {O : Output σ} {text rest : List Char} {ctx : Ctx σ}

theorem parsePort_outOfRange (hpos : ctx.pos = text ++ rest) (htext : IsPortText text)
    (h : maxPortNumber < portNumber text) :
    ∃ ctx', parsePort standardUriParsingOptions O ctx = .ok ctx' ∧
      ctx'.status.value = .portOutOfRange := by
  have hne : ctx.pos ≠ [] := by
    rintro hnil
    rw [hpos, List.append_eq_nil_iff] at hnil
    rw [hnil.1] at h
    exact absurd h (by decide)
  obtain ⟨ctx', hloop, hvalue⟩ := portLoop_outOfRange htext (Nat.zero_le _) h ctx
  refine ⟨ctx', ?_, hvalue⟩
  rw [parsePort, if_neg hne, if_neg (by decide), hpos]
  dsimp only
  rw [hloop]
  rfl

/-- What is stored of a number in range. -/
def portStored (O : Output σ) (text : List Char) (out : σ) : List Char :=
  if portNumber text = knownPort (O.view .scheme out) then [] else withoutZeros text

/-- A number in range is stored, unless it is the default. -/
theorem parsePort_read (hne : ctx.pos ≠ []) (hpos : ctx.pos = text ++ rest)
    (htext : IsPortText text) (hrest : EndsPort rest) (h : portNumber text ≤ maxPortNumber) :
    ∃ ctx', parsePort standardUriParsingOptions O ctx = .ok ctx' ∧
      ctx'.status.value = .validAuthorityEnd ∧
      ctx'.out = if portNumber text = knownPort (O.view .scheme ctx.out) then
          O.clear .port ctx.out
        else O.setValue .port (withoutZeros text ++ rest) rest ctx.out := by
  obtain ⟨ctx₁, hloop, hpos₁, hout₁⟩ := portLoop_text htext hrest h ctx
  have hskip : skipLeadingZeros rest (text ++ rest) = .ok (withoutZeros text ++ rest) := by
    by_cases htextNil : text = []
    · rw [htextNil, List.nil_append] at hpos ⊢
      exact skipLeadingZeros_rest hrest fun hrestNil => hne (hpos.trans hrestNil)
    · exact skipLeadingZeros_text htextNil rest
  refine ⟨{ ctx₁ with
    out := if portNumber text = knownPort (O.view .scheme ctx.out) then O.clear .port ctx.out
      else O.setValue .port (withoutZeros text ++ rest) rest ctx.out }.setValid
        .validAuthorityEnd, ?_, rfl, rfl⟩
  rw [parsePort, if_neg hne, if_neg (by decide), hpos]
  dsimp only
  rw [hloop]
  dsimp only
  rw [hpos₁, hskip, ok_bind, hout₁]
  rfl

theorem parsePort_text (hO : KeepsPort O) (hempty : O.view .port ctx.out = [])
    (hpos : ctx.pos = text ++ rest) (htext : IsPortText text) (hrest : EndsPort rest)
    (h : portNumber text ≤ maxPortNumber) :
    ∃ ctx', parsePort standardUriParsingOptions O ctx = .ok ctx' ∧
      ctx'.status.value ≠ .portOutOfRange ∧ O.view .port ctx'.out = portStored O text ctx.out := by
  by_cases hnil : ctx.pos = []
  · have htextNil : text = [] := (List.append_eq_nil_iff.mp (hpos.symm.trans hnil)).1
    refine ⟨ctx.setValid .valid, by rw [parsePort, if_pos hnil]; rfl,
      fun hvalue => UriStatus.noConfusion hvalue, ?_⟩
    rw [Ctx.setValid_out, hempty, htextNil, portStored]
    split <;> rfl
  · obtain ⟨ctx', hparse, hvalue, hout⟩ := parsePort_read (O := O) hnil hpos htext hrest h
    refine ⟨ctx', hparse, fun hrange => ?_, ?_⟩
    · rw [hvalue] at hrange
      cases hrange
    · rw [hout, portStored]
      split
      · exact hO.view_clear _
      · rw [hO.view_setValue, slice_append]

theorem withoutZeros_right_iff (htext : IsPortText text) :
    (withoutZeros text = [] ↔ portDigits text = []) ∧
        (withoutZeros text ≠ [] → withoutZeros text = Nat.toDigits 10 (portNumber text)) ↔
      ∀ c ∈ text, isTabOrNewline c = false := by
  constructor
  · rintro ⟨-, hdigits⟩ c hc
    refine Bool.eq_false_iff.mpr fun htab => ?_
    have hzero : c ≠ '0' := by
      rintro rfl
      exact absurd htab (by decide)
    have hmem := mem_withoutZeros hzero hc
    rw [hdigits (List.ne_nil_of_mem hmem)] at hmem
    have hdigit := Nat.isDigit_of_mem_toDigits (by decide) (by decide) hmem
    have hall : ∀ c ∈ ['\t', '\r', '\n'], ¬c.isDigit = true := by decide
    exact hall c (mem_of_isTabOrNewline htab) hdigit
  · intro huntabbed
    have hdigits : ∀ c ∈ text, isDigit c = true := fun c hc =>
      (htext c hc).resolve_right fun htab => by
        rw [huntabbed c hc] at htab
        cases htab
    have hself : portDigits text = text := List.filter_eq_self.mpr hdigits
    by_cases hnil : text = []
    · subst hnil
      exact ⟨Iff.rfl, fun h => absurd rfl h⟩
    · have hnumeral := withoutZeros_eq_toDigits hnil hdigits
      rw [portNumber, hself]
      refine ⟨iff_of_false ?_ hnil, fun _ => hnumeral⟩
      rw [hnumeral]
      exact Nat.toDigits_ne_nil

theorem defaultPort_ne_zero (scheme : List Char) : defaultPort scheme ≠ some 0 := by
  rw [defaultPort]
  split_ifs <;> simp

theorem portStored_right_iff {out : σ} {o : Options} (htext : IsPortText text)
    (hscheme : IsSchemeText o (O.view .scheme out)) (h : portNumber text ≤ maxPortNumber) :
    (portStored O text out = [] ↔
        portDigits text = [] ∨ defaultPort (O.view .scheme out) = some (portNumber text)) ∧
      (portStored O text out ≠ [] → portStored O text out = Nat.toDigits 10 (portNumber text)) ↔
    PortStands (O.view .scheme out) text := by
  rw [PortStands, or_iff_right (Nat.not_lt.mpr h), portStored, knownPort_eq_getD hscheme]
  have hzero := defaultPort_ne_zero (O.view .scheme out)
  generalize defaultPort (O.view .scheme out) = port at hzero
  by_cases hdefault : port = some (portNumber text)
  · rw [hdefault, Option.getD_some, if_pos rfl]
    exact iff_of_true ⟨iff_of_true rfl (.inr rfl), fun hne => absurd rfl hne⟩ (.inl rfl)
  · rw [or_iff_right hdefault, or_iff_left hdefault]
    by_cases hunknown : port = none ∧ portNumber text = 0
    · rw [if_pos hunknown, hunknown.1, hunknown.2, Option.getD_none, if_pos rfl]
      exact ⟨fun hright => hright.1.mp rfl,
        fun hnil => ⟨iff_of_true rfl hnil, fun hne => absurd rfl hne⟩⟩
    · have hstored : ¬portNumber text = port.getD 0 := by
        cases port with
        | none => exact fun hnumber => hunknown ⟨rfl, hnumber⟩
        | some n => exact fun hnumber => hdefault (congrArg some hnumber.symm)
      rw [if_neg hunknown, if_neg hstored]
      exact withoutZeros_right_iff htext

/-- `parse_port` leaves of a port what is to be left of it, exactly where it stands: a tab is
stored with the digits, and the number 0 of a scheme without default port is not stored. -/
theorem parsePort_stands_iff (hO : KeepsPort O) (hempty : O.view .port ctx.out = [])
    (hscheme : IsSchemeText standardUriParsingOptions (O.view .scheme ctx.out))
    (hpos : ctx.pos = text ++ rest) (htext : IsPortText text) (hrest : EndsPort rest) :
    ∃ ctx', parsePort standardUriParsingOptions O ctx = .ok ctx' ∧
      (ParsesPort O text ctx ctx' ↔ PortStands (O.view .scheme ctx.out) text) := by
  have haccumulator := portLoop32_eq standardUriParsingOptions ctx.pos
    (show (0 : UInt32).toNat ≤ maxPortNumber from Nat.zero_le _) ctx
  by_cases hrange : portNumber text ≤ maxPortNumber
  · obtain ⟨ctx', hparse, hvalue, hstored⟩ := parsePort_text hO hempty hpos htext hrest hrange
    refine ⟨ctx', hparse, ?_⟩
    rw [← portStored_right_iff htext hscheme hrange, ← hstored]
    constructor
    · exact fun h => ⟨h.stored_nil_iff hrange, h.stored_eq hrange⟩
    · exact fun h => ⟨iff_of_false hvalue (Nat.not_lt.mpr hrange), fun _ => h.1, fun _ => h.2,
        haccumulator⟩
  · have hout := Nat.not_le.mp hrange
    obtain ⟨ctx', hparse, hvalue⟩ := parsePort_outOfRange hpos htext hout
    refine ⟨ctx', hparse, iff_of_true ?_ (.inl hout)⟩
    exact ⟨iff_of_true hvalue hout, fun h => absurd h hrange, fun h => absurd h hrange,
      haccumulator⟩

end Port

/-- The context of strings behind the colon of `scheme://a:`. -/
def portCtx (scheme text : List Char) : Ctx Strings :=
  ⟨scheme ++ [':', '/', '/', 'a', ':'] ++ text, text,
    Function.update (fun _ => []) .scheme scheme, .start, .notSpecial⟩

theorem endsPort_slash : EndsPort ['/'] := by
  rintro c ⟨⟩
  decide

theorem parsePort_stands_iff_http : ∃ ctx',
    parsePort standardUriParsingOptions stringOutput
      (portCtx ['h', 't', 't', 'p'] ['0', '8', '1', '/']) = .ok ctx' ∧
    (ParsesPort stringOutput ['0', '8', '1'] (portCtx ['h', 't', 't', 'p'] ['0', '8', '1', '/'])
      ctx' ↔ PortStands ['h', 't', 't', 'p'] ['0', '8', '1']) :=
  parsePort_stands_iff stringOutput_keepsPort rfl
    ⟨⟨'h', ['t', 't', 'p'], by decide, by decide, by decide⟩, .inl rfl⟩ rfl
    (by unfold IsPortText; decide) endsPort_slash

/-- The number 0 is not stored in a URI of the scheme `f`. -/
theorem not_parsesPort_zero :
    ¬∃ ctx', parsePort standardUriParsingOptions stringOutput (portCtx ['f'] ['0']) = .ok ctx' ∧
      ParsesPort stringOutput ['0'] (portCtx ['f'] ['0']) ctx' := by
  rintro ⟨ctx', hparse, h⟩
  have hport : (parsePort standardUriParsingOptions stringOutput (portCtx ['f'] ['0'])).map
      (fun ctx => ctx.out .port) = .ok [] := rfl
  rw [hparse] at hport
  have hnil : ctx'.out .port = [] := Except.ok.inj hport
  exact absurd ((h.stored_nil_iff (by decide)).mp hnil) (by decide)

end Webpp.Uri
