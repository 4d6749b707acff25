import Cookbook.Proofs.Value.RoundTrip

/-!
What integers are read as. An integer is spelled in decimal, or in base 16 or 2 after a mark, with
underscores between its digits and perhaps a minus before it. It is read as a number or as the text of
its digits, and what it denotes is then kept or lost.

* `IntegerSpelling` is a spelling, `IntegerSpelling.Keeps` says which values keep what it denotes;
* `IntegerSpelling.exists_text_eq` says that every integer that is one token is such a spelling, and
  `IntegerSpelling.lex_written` gives its tokens;
* `IntegerSpelling.literal?` is its literal, `IntegerSpelling.ofText?_plain` where it is rounded;
* `IntegerSpelling.normalizeText_written` is the whole reading;
* `integer_kept_iff` is the result: an integer is kept exactly when it has a literal, unless it has
  another base and more than 53 bits, or is a file mode behind a minus.
-/

namespace Cookbook

/-! ### Spellings -/

/-- How an integer is written: in decimal, or in another base after a zero and a letter of either
case. -/
inductive IntegerForm where
  | decimal
  | hexadecimal (capital : Bool)
  | binary (capital : Bool)
deriving DecidableEq

namespace IntegerForm

def base : IntegerForm → Nat
  | decimal => 10
  | hexadecimal _ => 16
  | binary _ => 2

def mark : IntegerForm → Text
  | decimal => []
  | hexadecimal capital => if capital then "0X" else "0x"
  | binary capital => if capital then "0B" else "0b"

def isDigit : IntegerForm → CodeUnit → Bool
  | decimal, c => c.isDigit
  | hexadecimal _, c => c.isHexDigit
  | binary _, c => c == '0' || c == '1'

/-- A digit of the form, or an underscore, which may group digits. -/
def isUnit (form : IntegerForm) (c : CodeUnit) : Bool := form.isDigit c || c == '_'

/-- What may follow the mark at once: a digit, and behind a mark an underscore too. -/
def leads : IntegerForm → CodeUnit → Bool
  | decimal, c => c.isDigit
  | form, c => form.isUnit c

theorem isHexDigit_of_isDigit {form : IntegerForm} {c : CodeUnit} (h : form.isDigit c = true) :
    c.isHexDigit = true := by
  cases form with
  | decimal => exact Number.isHexDigit_of_isDigit h
  | hexadecimal capital => exact h
  | binary capital =>
    simp only [isDigit, Bool.or_eq_true, beq_iff_eq] at h
    rcases h with rfl | rfl <;> decide

theorem digitValue_lt {form : IntegerForm} {c : CodeUnit} (h : form.isDigit c = true) :
    Text.digitValue c < form.base := by
  cases form with
  | decimal =>
    have hc : c.isDigit = true := h
    rw [Text.digitValue, if_pos hc]
    simp only [CodeUnit.isDigit, Bool.and_eq_true, decide_eq_true_eq, UInt16.le_iff_toNat_le,
      UInt16.reduceToNat] at hc
    show c.toNat - 0x30 < 10
    omega
  | hexadecimal capital =>
    simp only [isDigit, CodeUnit.isHexDigit, CodeUnit.isDigit, Bool.or_eq_true, Bool.and_eq_true,
      decide_eq_true_eq, UInt16.le_iff_toNat_le, UInt16.reduceToNat] at h
    simp only [Text.digitValue, CodeUnit.isDigit, CodeUnit.isLower, Bool.and_eq_true, decide_eq_true_eq,
      UInt16.le_iff_toNat_le, UInt16.reduceToNat, base]
    split
    · omega
    · split <;> omega
  | binary capital =>
    simp only [isDigit, Bool.or_eq_true, beq_iff_eq] at h
    rcases h with rfl | rfl <;> exact of_decide_eq_true rfl

/-- A mark announces the base of the digits behind it. -/
theorem mark_spec {form : IntegerForm} (h : form ≠ decimal) :
    ∃ m : CodeUnit, form.mark = [('0' : CodeUnit), m] ∧ Number.radix? m = some form.base := by
  cases form with
  | decimal => exact absurd rfl h
  | hexadecimal capital => cases capital <;> exact ⟨_, rfl, rfl⟩
  | binary capital => cases capital <;> exact ⟨_, rfl, rfl⟩

/-- Behind a mark any unit may come first. -/
theorem head?_leads {form : IntegerForm} (hform : form ≠ decimal) {units : Text} (hne : units ≠ [])
    (hunits : units.all form.isUnit = true) : units.head?.any form.leads = true := by
  cases units with
  | nil => exact absurd rfl hne
  | cons c rest =>
    have hc := List.all_eq_true.1 hunits c List.mem_cons_self
    cases form with
    | decimal => exact absurd rfl hform
    | hexadecimal capital => exact hc
    | binary capital => exact hc

end IntegerForm

/-- The spelling of an integer without its sign: digits of the form and underscores between them. -/
structure IntegerSpelling where
  form : IntegerForm
  units : Text
  isUnit : units.all form.isUnit = true
  leads : units.head?.any form.leads = true

namespace IntegerSpelling

variable (s : IntegerSpelling)

def text : Text := s.form.mark ++ s.units

def digits : Text := s.units.filter (· != '_')

def plain : Text := s.form.mark ++ s.digits

def value : Nat := Text.toNat s.form.base s.digits

/-- Whether it is written as file modes are, in octal digits after a zero. -/
def isFileMode : Bool := s.plain.isFileMode

def signed (negative : Bool) (t : Text) : Text := if negative then "-" ++ t else t

def signedValue (negative : Bool) (n : Nat) : Number := if negative then -(n : Rat) else n

/-- A value keeps the integer: it is the integer's digits as text or, but for a file mode, the integer
itself. -/
def Keeps (negative : Bool) (v : Value) : Prop :=
  v = .ofText (signed negative s.plain) ∨
    s.isFileMode = false ∧ v = .literal (.number (signedValue negative s.value))

/-! ### Literals -/

/-- The integer has a finite value: it has digits, and not too many. -/
def HasValue : Prop := s.digits ≠ [] ∧ s.value < Number.overflow

instance : Decidable s.HasValue := inferInstanceAs (Decidable (_ ∧ _))

/-- The literal of the integer as a number: a decimal of more than 53 bits keeps its digits, any other
integer is rounded. -/
def numeral? (negative : Bool) : Option Value :=
  if s.HasValue then
    if s.form = .decimal ∧ Number.maxSafe < s.value then some (.ofText (signed negative s.plain))
    else some (.literal (.number (signedValue negative (Number.rounded s.value))))
  else none

/-- What the integer is read as, when it is read as a literal. -/
def literal? (negative : Bool) : Option Value :=
  if negative = false ∧ s.isFileMode = true then some (.ofText s.plain) else s.numeral? negative

theorem digitsOf_text : NormalizeContext.digitsOf s.text = s.plain := by
  have hmark : s.form.mark.filter (fun c : CodeUnit => c != '_') = s.form.mark := by
    cases s.form with
    | decimal => rfl
    | hexadecimal capital => cases capital <;> rfl
    | binary capital => cases capital <;> rfl
  unfold NormalizeContext.digitsOf text plain digits
  rw [List.filter_append, hmark]

variable {s}

theorem isDigit_of_mem_digits {c : CodeUnit} (h : c ∈ s.digits) : s.form.isDigit c = true := by
  obtain ⟨hunit, hc⟩ := List.mem_filter.1 h
  have hunit := List.all_eq_true.1 s.isUnit c hunit
  rw [IntegerForm.isUnit, Bool.or_eq_true] at hunit
  exact hunit.resolve_right (by simpa using hc)

theorem plain_of_decimal (h : s.form = .decimal) : s.plain = s.digits := by
  rw [plain, h]
  rfl

theorem digits_ne_nil (h : s.form = .decimal) : s.digits ≠ [] := by
  have hleads := s.leads
  unfold digits
  cases hunits : s.units with
  | nil => simp [hunits] at hleads
  | cons c rest =>
    have hc : c.isDigit = true := by
      rw [hunits, h] at hleads
      exact hleads
    have hunderscore : (c != CodeUnit.ofChar '_') = true := by
      refine bne_iff_ne.2 ?_
      rintro rfl
      exact absurd hc (by decide)
    simp [hunderscore]

theorem isDigits_plain : s.plain.isDigits = decide (s.form = .decimal) := by
  by_cases h : s.form = .decimal
  · have hdigits : ∀ c ∈ s.digits, CodeUnit.isDigit c = true := by
      intro c hc
      have hdigit := isDigit_of_mem_digits hc
      rw [h] at hdigit
      exact hdigit
    rw [decide_eq_true h, plain_of_decimal h]
    simpa [Text.isDigits, digits_ne_nil h] using hdigits
  · obtain ⟨m, hmark, hradix⟩ := IntegerForm.mark_spec h
    have hm : m.isDigit = false := by
      rw [← Bool.not_eq_true]
      intro hdigit
      rw [Number.radix?_of_isDigit hdigit] at hradix
      exact absurd hradix (by simp)
    rw [decide_eq_false h, plain, hmark]
    simp [Text.isDigits, hm]

variable (s)

theorem ofText?_plain :
    Number.ofText? s.plain = if s.HasValue then some (Number.rounded s.value : Rat) else none := by
  by_cases h : s.form = .decimal
  · have hdigits : s.plain.isDigits = true := isDigits_plain.trans (decide_eq_true h)
    have hvalue : s.HasValue ↔ s.value < Number.overflow := and_iff_right (digits_ne_nil h)
    have hbase : s.value = Text.toNat 10 s.plain := by
      rw [value, h, plain_of_decimal h]
      rfl
    rw [Number.ofText?_of_isDigits hdigits, ← hbase, Number.nearest?_natCast]
    exact if_congr hvalue.symm rfl rfl
  · obtain ⟨m, hmark, hradix⟩ := IntegerForm.mark_spec h
    have hdigits : ∀ c ∈ s.digits, CodeUnit.isHexDigit c = true ∧ Text.digitValue c < s.form.base :=
      fun c hc => ⟨IntegerForm.isHexDigit_of_isDigit (isDigit_of_mem_digits hc),
        IntegerForm.digitValue_lt (isDigit_of_mem_digits hc)⟩
    rw [plain, hmark]
    show Number.ofText? (CodeUnit.ofChar '0' :: m :: s.digits) = _
    rw [Number.ofText?_radix hradix hdigits, Number.nearest?_natCast]
    by_cases hnil : s.digits = []
    · rw [if_pos hnil, if_neg fun hvalue => hvalue.1 hnil]
    · rw [if_neg hnil]
      exact if_congr (and_iff_right hnil).symm rfl rfl

theorem number?_plain (negative : Bool) :
    NormalizeContext.number? s.plain negative = s.numeral? negative := by
  unfold NormalizeContext.number? numeral?
  rw [ofText?_plain]
  by_cases hvalue : s.HasValue
  · have hsafe : Number.isSafeInteger (Number.rounded s.value : Rat) =
        decide (s.value ≤ Number.maxSafe) := by
      rw [Number.isSafeInteger_natCast]
      exact decide_eq_decide.2 Number.rounded_le_maxSafe_iff
    rw [if_pos hvalue, if_pos hvalue]
    simp only [Option.bind_eq_bind, Option.bind_some, isDigits_plain, hsafe]
    refine if_congr ?_ rfl rfl
    simp
  · rw [if_neg hvalue, if_neg hvalue]
    rfl

theorem numberToken?_text : NormalizeContext.numberToken? s.text = s.literal? false := by
  unfold NormalizeContext.numberToken? literal?
  dsimp only
  rw [digitsOf_text, number?_plain]
  simp [isFileMode]

theorem number?_digitsOf_text :
    NormalizeContext.number? (NormalizeContext.digitsOf s.text) true = s.literal? true := by
  rw [digitsOf_text, number?_plain]
  rfl

/-! ### Tokens -/

def written (negative : Bool) : Text := signed negative s.text

def token (pos : Nat) : Token := ⟨.name .number s.text, pos, pos + s.text.length, s.text, false⟩

def tokens (negative : Bool) : List Token :=
  if negative then [⟨.name .punct "-", 0, 1, "-", false⟩, s.token 1] else [s.token 0]

theorem radixLength?_text {mark : Char} {digit : CodeUnit → Bool} {m : CodeUnit}
    (hmark : s.form.mark = [('0' : CodeUnit), m]) (hm : m = mark ∨ m = mark.toUpper)
    (hdigit : ∀ c, s.form.isDigit c = digit c) :
    Lexeme.radixLength? mark digit s.text = some s.text.length := by
  have htext : s.text = CodeUnit.ofChar '0' :: m :: s.units := by
    rw [text, hmark]
    rfl
  have hrun : Lexeme.run (fun c => digit c || c == '_') s.units = s.units.length := by
    have hunits : ∀ c ∈ s.units, (digit c || c == '_') = true := fun c hc => by
      rw [← hdigit]
      exact List.all_eq_true.1 s.isUnit c hc
    have hrun : Lexeme.run (fun c => digit c || c == '_') (s.units ++ []) = s.units.length :=
      Canonical.run_append_of_all hunits rfl
    rwa [List.append_nil] at hrun
  have hne : 0 < s.units.length := by
    have hleads := s.leads
    refine List.length_pos_iff.2 ?_
    intro hnil
    simp [hnil] at hleads
  rw [htext]
  unfold Lexeme.radixLength?
  dsimp only
  rw [hrun, if_pos ⟨rfl, hm, hne⟩]
  rfl

theorem number_text : Lexeme.number s.text = ⟨.name .number s.text, s.text.length⟩ := by
  cases hform : s.form with
  | decimal =>
    have htext : s.text = s.units := by
      rw [text, hform]
      rfl
    have hunits : ∀ c ∈ s.units, Lexeme.isDigitUnit c = true := by
      have h := List.all_eq_true.1 s.isUnit
      rw [hform] at h
      exact h
    have hne : s.units ≠ [] := by
      intro hnil
      simpa [hnil] using s.leads
    have hnumber : Lexeme.number (s.units ++ []) = ⟨.name .number s.units, s.units.length⟩ :=
      Written.number_digits rfl hunits hne
    rw [List.append_nil, ← htext] at hnumber
    exact hnumber
  | hexadecimal capital =>
    have hdigit : ∀ c, s.form.isDigit c = CodeUnit.isHexDigit c := by
      rw [hform]
      exact fun c => rfl
    have hlength : Lexeme.radixLength? 'x' CodeUnit.isHexDigit s.text = some s.text.length := by
      cases capital with
      | false => exact radixLength?_text s (m := 'x') (by rw [hform]; rfl) (.inl rfl) hdigit
      | true => exact radixLength?_text s (m := 'X') (by rw [hform]; rfl) (.inr rfl) hdigit
    unfold Lexeme.number
    rw [hlength]
    simp [Lexeme.spelled]
  | binary capital =>
    have hdigit : ∀ c, s.form.isDigit c = (c == '0' || c == '1') := by
      rw [hform]
      exact fun c => rfl
    have hlength : Lexeme.radixLength? 'b' (fun c => c == '0' || c == '1') s.text =
        some s.text.length := by
      cases capital with
      | false => exact radixLength?_text s (m := 'b') (by rw [hform]; rfl) (.inl rfl) hdigit
      | true => exact radixLength?_text s (m := 'B') (by rw [hform]; rfl) (.inr rfl) hdigit
    -- the mark of a binary number is none of a hexadecimal one
    have hother : Lexeme.radixLength? 'x' CodeUnit.isHexDigit s.text = none := by
      rw [text, hform]
      cases capital <;> rfl
    unfold Lexeme.number
    rw [hlength, hother]
    simp [Lexeme.spelled]

/-- Digits take all of a text that is one number unless a fraction or an exponent follows them. -/
theorem mark_of_decimalLength {whole rest : Text} {c : CodeUnit}
    (hwhole : ∀ u ∈ whole, Lexeme.isDigitUnit u = true) (hc : Lexeme.isDigitUnit c = false)
    (h : Lexeme.decimalLength (whole ++ c :: rest) = (whole ++ c :: rest).length) :
    c = '.' ∨ c = 'e' ∨ c = 'E' := by
  by_contra hmark
  simp only [not_or] at hmark
  obtain ⟨hpoint, he, hE⟩ := hmark
  have hfraction : Lexeme.fractionLength (c :: rest) = 0 := by
    cases rest <;> simp [Lexeme.fractionLength, hpoint]
  have hexponent : Lexeme.exponentLength (c :: rest) = 0 := by
    simp [Lexeme.exponentLength, he, hE]
  have hrun : Lexeme.run Lexeme.isDigitUnit (whole ++ c :: rest) = whole.length :=
    Canonical.run_append_of_all hwhole hc
  unfold Lexeme.decimalLength at h
  rw [hrun] at h
  simp [hfraction, hexponent] at h

/-- A number in another base is a mark with digits and underscores behind it. -/
theorem units_of_radixLength? {mark : Char} {digit : CodeUnit → Bool} {t : Text}
    (h : Lexeme.radixLength? mark digit t = some t.length) :
    ∃ m units, t = CodeUnit.ofChar '0' :: m :: units ∧ (m = mark ∨ m = mark.toUpper) ∧ units ≠ [] ∧
      units.all (fun c => digit c || c == '_') = true := by
  unfold Lexeme.radixLength? at h
  split at h
  · rename_i z m units
    dsimp only at h
    split at h
    · rename_i hmark
      obtain ⟨rfl, hm, hpos⟩ := hmark
      have hrun := Nat.add_right_cancel (Option.some.inj h)
      have hall : ∀ c ∈ units, (digit c || c == '_') = true :=
        List.takeWhile_eq_self_iff.1 ((List.takeWhile_prefix _).eq_of_length hrun)
      refine ⟨m, units, rfl, hm, ?_, List.all_eq_true.2 hall⟩
      rintro rfl
      exact absurd hpos (Nat.lt_irrefl 0)
    · exact absurd h (by simp)
  · exact absurd h (by simp)

/-- Spellings are all there is: a text that is one number is the spelling of an integer, or has a
fraction or an exponent behind its digits. -/
theorem exists_text_eq {t : Text} (hstart : t.head?.any CodeUnit.isDigit = true)
    (h : (Lexeme.number t).length = t.length) :
    (∃ s : IntegerSpelling, s.text = t) ∨
      ∃ (whole rest : Text) (c : CodeUnit), t = whole ++ c :: rest ∧
        (∀ u ∈ whole, Lexeme.isDigitUnit u = true) ∧ (c = '.' ∨ c = 'e' ∨ c = 'E') := by
  unfold Lexeme.number at h
  cases hhexadecimal : Lexeme.radixLength? 'x' CodeUnit.isHexDigit t with
  | some n =>
    rw [hhexadecimal] at h
    obtain rfl : n = t.length := h
    obtain ⟨m, units, rfl, hm, hne, hunits⟩ := units_of_radixLength? hhexadecimal
    refine .inl ?_
    rcases hm with rfl | rfl
    · exact ⟨⟨.hexadecimal false, units, hunits, IntegerForm.head?_leads (by simp) hne hunits⟩, rfl⟩
    · exact ⟨⟨.hexadecimal true, units, hunits, IntegerForm.head?_leads (by simp) hne hunits⟩, rfl⟩
  | none =>
    cases hbinary : Lexeme.radixLength? 'b' (fun c => c == '0' || c == '1') t with
    | some n =>
      rw [hhexadecimal, hbinary] at h
      obtain rfl : n = t.length := h
      obtain ⟨m, units, rfl, hm, hne, hunits⟩ := units_of_radixLength? hbinary
      refine .inl ?_
      rcases hm with rfl | rfl
      · exact ⟨⟨.binary false, units, hunits, IntegerForm.head?_leads (by simp) hne hunits⟩, rfl⟩
      · exact ⟨⟨.binary true, units, hunits, IntegerForm.head?_leads (by simp) hne hunits⟩, rfl⟩
    | none =>
      rw [hhexadecimal, hbinary] at h
      have hlength : Lexeme.decimalLength t = t.length := h
      have hsplit := List.takeWhile_append_dropWhile (p := Lexeme.isDigitUnit) (l := t)
      have hwhole : ∀ u ∈ t.takeWhile Lexeme.isDigitUnit, Lexeme.isDigitUnit u = true :=
        fun u hu => List.mem_takeWhile_imp hu
      cases hrest : t.dropWhile Lexeme.isDigitUnit with
      | nil =>
        rw [hrest, List.append_nil] at hsplit
        rw [hsplit] at hwhole
        exact .inl ⟨⟨.decimal, t, List.all_eq_true.2 hwhole, hstart⟩, rfl⟩
      -- what a number takes beyond its digits starts with a point or with the letter of an exponent
      | cons c rest =>
        rw [hrest] at hsplit
        have hc : Lexeme.isDigitUnit c = false := by
          have := List.head?_dropWhile_not Lexeme.isDigitUnit t
          rw [hrest] at this
          simpa using this
        rw [← hsplit] at hlength
        exact .inr ⟨_, rest, c, hsplit.symm, hwhole, mark_of_decimalLength hwhole hc hlength⟩

theorem text_eq_cons : ∃ c taken, s.text = c :: taken ∧ c.isDigit = true := by
  cases hform : s.form with
  | decimal =>
    have hleads := s.leads
    rw [text, hform]
    cases hunits : s.units with
    | nil => simp [hunits] at hleads
    | cons c rest =>
      rw [hunits, hform] at hleads
      exact ⟨c, rest, rfl, hleads⟩
  | hexadecimal capital =>
    rw [text, hform]
    cases capital <;> exact ⟨_, _, rfl, rfl⟩
  | binary capital =>
    rw [text, hform]
    cases capital <;> exact ⟨_, _, rfl, rfl⟩

theorem scan_text (state : LexState) (pos : Nat) :
    LexState.scan pos 0 state s.text =
      LexState.scan (pos + s.text.length) 0
        { state with tokens := state.tokens.push { s.token pos with spaceBefore := state.spaced },
                     spaced := false, atLineStart := false } [] := by
  obtain ⟨c, taken, htext, hdigit⟩ := s.text_eq_cons
  have hnumber : Lexeme.number (s.text ++ []) = ⟨.name .number s.text, s.text.length⟩ := by
    rw [List.append_nil]
    exact s.number_text
  have hscan := Canonical.scan_step taken (Written.step_numeral state pos htext hdigit hnumber)
  rw [List.append_nil, ← htext, ← List.length_cons, ← htext] at hscan
  exact hscan

theorem lex_written (negative : Bool) : lex (s.written negative) 0 = ⟨s.tokens negative, []⟩ := by
  cases negative with
  | false =>
    unfold lex
    show Lexed.mk (LexState.scan 0 0 .start s.text).tokens.toList
      (LexState.scan 0 0 .start s.text).problems.toList = _
    rw [scan_text]
    rfl
  | true =>
    obtain ⟨c, taken, htext, hdigit⟩ := s.text_eq_cons
    have hstep : LexState.start.step 0 '-' ([] ++ c :: taken) = (_, 0) :=
      Written.step_minus .start 0 hdigit
    have hminus := Canonical.scan_step [] hstep
    rw [List.nil_append, ← htext, scan_text] at hminus
    unfold lex
    show Lexed.mk (LexState.scan 0 0 .start (CodeUnit.ofChar '-' :: s.text)).tokens.toList
      (LexState.scan 0 0 .start (CodeUnit.ofChar '-' :: s.text)).problems.toList = _
    rw [hminus]
    rfl

/-! ### Reading -/

section Reading

variable (ctx : NormalizeContext) (whole : List Token → Normalized)

theorem primary?_number {t : Token} (ht : t.content = .name .number s.text) (rest : List Token) :
    ctx.primary? whole (t :: rest) = (s.literal? false).map fun v => (.clean v, 1) := by
  rw [← numberToken?_text]
  unfold NormalizeContext.primary?
  simp only [ht]

theorem primary?_minus {minus t : Token} (hminus : minus.content = .name .punct "-")
    (ht : t.content = .name .number s.text) (hspace : t.spaceBefore = false) (rest : List Token) :
    ctx.primary? whole (minus :: t :: rest) = (s.literal? true).map fun v => (.clean v, 2) := by
  have hvalue : t.valueOf? .number = some s.text := by simp [Token.valueOf?, ht]
  rw [← number?_digitsOf_text]
  unfold NormalizeContext.primary?
  simp only [hminus, hspace, hvalue, if_true, Bool.false_eq_true, if_false, Option.bind_eq_bind,
    Option.bind_some]
  cases NormalizeContext.number? (NormalizeContext.digitsOf s.text) true <;> rfl

theorem primary?_tokens (negative : Bool) :
    ctx.primary? whole (s.tokens negative) =
      (s.literal? negative).map fun v => (.clean v, (s.tokens negative).length) := by
  cases negative with
  | false => exact primary?_number s ctx whole rfl []
  | true => exact primary?_minus s ctx whole rfl rfl rfl []

theorem keep_tokens {negative : Bool} (htext : ctx.text = s.written negative) (finding : Text → Finding) :
    ctx.keep (s.tokens negative) finding =
      ⟨.verbatim (s.written negative), [⟨finding (s.written negative), ctx.source,
        ctx.lines.span 0 (s.written negative).length, none⟩]⟩ := by
  obtain ⟨first, last, hfirst, hlast, hstart, hstop⟩ : ∃ first last,
      (s.tokens negative).head? = some first ∧ (s.tokens negative).getLast? = some last ∧
        first.start = 0 ∧ last.stop = (s.written negative).length := by
    cases negative with
    | false => exact ⟨_, _, rfl, rfl, rfl, Nat.zero_add _⟩
    | true => exact ⟨_, _, rfl, rfl, rfl, Nat.add_comm _ _⟩
  unfold NormalizeContext.keep sourceOf NormalizeContext.spanOf
  rw [hfirst, hlast, htext]
  dsimp only
  rw [hstart, hstop, show (s.written negative).slice 0 (s.written negative).length = s.written negative by
    simp [Text.slice]]
  rfl

/-- The tokens of a spelling are read as its literal, or kept as written. -/
theorem normalize_tokens (negative : Bool) :
    ctx.normalize (s.tokens negative) =
      ((s.literal? negative).map .clean).getD (ctx.keep (s.tokens negative) .unrecognizedValue) := by
  have hne : (s.tokens negative).isEmpty = false := by cases negative <;> rfl
  have hlazy : (s.tokens negative).head?.any (·.isIdent ["lazy"]) = false := by cases negative <;> rfl
  have hconst : ctx.isUnknownConstant (s.tokens negative) = false := by cases negative <;> rfl
  have hargs : Argument.ofRun (s.tokens negative) = [.positional (s.tokens negative)] := by
    cases negative <;> rfl
  unfold NormalizeContext.normalize NormalizeContext.fuel
  rw [hne, if_neg Bool.false_ne_true, NormalizeContext.readRun,
    Canonical.wholeRun_positional ctx hlazy hconst hargs, primary?_tokens]
  cases s.literal? negative with
  | none => rfl
  | some v => exact if_pos rfl

end Reading

theorem normalizeText_written (negative : Bool) (source : Text) (constants : Bindings Value) :
    normalizeText (s.written negative) source constants =
      match s.literal? negative with
      | some v => .clean v
      | none =>
        ⟨.verbatim (s.written negative),
          [⟨.unrecognizedValue (s.written negative), source,
            (LineIndex.ofText (s.written negative)).span 0 (s.written negative).length, none⟩]⟩ := by
  have hlines : (s.tokens negative).filter (!·.isNewline) = s.tokens negative := by
    cases negative <;> rfl
  unfold normalizeText
  dsimp only
  rw [lex_written]
  dsimp only
  rw [hlines, normalize_tokens]
  cases s.literal? negative with
  | some v => rfl
  | none =>
    dsimp only [Option.map_none, Option.getD_none]
    rw [keep_tokens s _ rfl]
    rfl

/-! ### What is kept -/

/-- The integer is read as a literal: it is a file mode without a sign, or has a finite value. -/
def HasLiteral (negative : Bool) : Prop := negative = false ∧ s.isFileMode = true ∨ s.HasValue

/-- The integer is in another base and has more than 53 bits from its first to its last. -/
def Rounds : Prop := s.form ≠ .decimal ∧ ¬Number.lastPlace s.value ∣ s.value

/-- The integer is written like a file mode behind a minus, and short enough for a number. -/
def LosesMode (negative : Bool) : Prop :=
  negative = true ∧ s.isFileMode = true ∧ s.value ≤ Number.maxSafe

variable {s} {negative : Bool}

theorem decimal_of_isFileMode (h : s.isFileMode = true) : s.form = .decimal := by
  have hdigits : s.plain.isDigits = true := by
    unfold isFileMode Text.isFileMode at h
    split at h
    · rename_i c d rest hplain
      simp only [Bool.and_eq_true, beq_iff_eq, List.all_eq_true] at h
      obtain ⟨rfl, h⟩ := h
      have hrest : ∀ u ∈ d :: rest, CodeUnit.isDigit u = true := fun u hu => (h u hu).1
      rw [hplain, Text.isDigits, List.all_cons, List.all_eq_true.2 hrest]
      rfl
    · exact absurd h Bool.false_ne_true
  rwa [isDigits_plain, decide_eq_true_eq] at hdigits

theorem signedValue_inj {m n : Nat} : signedValue negative m = signedValue negative n ↔ m = n := by
  cases negative <;> simp [signedValue]

/-- A number keeps the integer when it is the integer and the integer no file mode. -/
theorem keeps_number_iff {n : Nat} : s.Keeps negative (.literal (.number (signedValue negative n))) ↔
    s.isFileMode = false ∧ n = s.value := by
  simp [Keeps, Value.ofText, signedValue_inj]

/-- When the rounded number keeps the integer, if that is what is read. -/
theorem keeps_rounded_iff (hmode : ¬(negative = false ∧ s.isFileMode = true))
    (hsmall : ¬(s.form = .decimal ∧ Number.maxSafe < s.value)) :
    s.Keeps negative (.literal (.number (signedValue negative (Number.rounded s.value)))) ↔
      ¬s.Rounds ∧ ¬s.LosesMode negative := by
  rw [keeps_number_iff, Number.rounded_eq_self_iff, and_comm]
  by_cases hdecimal : s.form = .decimal
  · have hvalue : s.value ≤ Number.maxSafe := not_lt.1 fun hlarge => hsmall ⟨hdecimal, hlarge⟩
    have hkept := Number.rounded_eq_self_iff.1 (Number.rounded_of_le hvalue)
    have hrounds : ¬s.Rounds := fun h => h.1 hdecimal
    rw [and_iff_right hkept, and_iff_right hrounds]
    refine ⟨fun h hloses => absurd hloses.2.1 (by simp [h]), fun hloses => ?_⟩
    refine Bool.eq_false_iff.2 fun hfile => ?_
    cases negative with
    | false => exact hmode ⟨rfl, hfile⟩
    | true => exact hloses ⟨rfl, hfile, hvalue⟩
  · have hother : s.isFileMode = false := Bool.eq_false_iff.2 fun h => hdecimal (decimal_of_isFileMode h)
    simp [Rounds, LosesMode, hdecimal, hother]

theorem isSome_literal? : (s.literal? negative).isSome = true ↔ s.HasLiteral negative := by
  unfold literal? HasLiteral
  split
  · rename_i h
    exact iff_of_true rfl (.inl h)
  · rename_i h
    rw [or_iff_right h]
    unfold numeral?
    split
    · rename_i hvalue
      split <;> exact iff_of_true rfl hvalue
    · rename_i hvalue
      exact iff_of_false (by simp) hvalue

theorem exists_literal {v : Value} (h : s.literal? negative = some v) : ∃ l, v = .literal l := by
  unfold literal? numeral? at h
  split at h
  · exact ⟨_, (Option.some.inj h).symm⟩
  · split at h
    · split at h <;> exact ⟨_, (Option.some.inj h).symm⟩
    · exact absurd h (by simp)

/-- Which literals keep the integer. -/
theorem keeps_literal?_iff {v : Value} (h : s.literal? negative = some v) :
    s.Keeps negative v ↔ ¬s.Rounds ∧ ¬s.LosesMode negative := by
  unfold literal? numeral? at h
  split at h
  · rename_i hmode
    obtain ⟨rfl, hmode⟩ := hmode
    obtain rfl := Option.some.inj h
    have hdecimal := decimal_of_isFileMode hmode
    exact iff_of_true (.inl rfl)
      ⟨fun hrounds => hrounds.1 hdecimal, fun hloses => absurd hloses.1 (by simp)⟩
  · rename_i hmode
    split at h
    · split at h
      · rename_i hlarge
        obtain rfl := Option.some.inj h
        exact iff_of_true (.inl rfl)
          ⟨fun hrounds => hrounds.1 hlarge.1, fun hloses => hlarge.2.not_ge hloses.2.2⟩
      · rename_i hsmall
        obtain rfl := Option.some.inj h
        exact keeps_rounded_iff hmode hsmall
    · exact absurd h (by simp)

end IntegerSpelling

/-- An integer is read as a literal, and nothing is said about it, exactly when it is a file mode or has
a finite value; else it is kept as written. It is then kept unless it is in another base and has more
than 53 bits, or is a file mode behind a minus. -/
theorem integer_kept_iff (s : IntegerSpelling) (negative : Bool) (source : Text)
    (constants : Bindings Value) :
    let result := normalizeText (s.written negative) source constants
    (s.HasLiteral negative ↔ ∃ literal, result = .clean (.literal literal)) ∧
      (¬s.HasLiteral negative ↔ result.value = .verbatim (s.written negative)) ∧
      (s.Keeps negative result.value ↔
        s.HasLiteral negative ∧ ¬s.Rounds ∧ ¬s.LosesMode negative) := by
  intro result
  have hresult : result = _ := s.normalizeText_written negative source constants
  rw [hresult, ← IntegerSpelling.isSome_literal?]
  cases hliteral : s.literal? negative with
  | none => simp [IntegerSpelling.Keeps, Value.ofText, Normalized.clean]
  | some v =>
    obtain ⟨literal, rfl⟩ := IntegerSpelling.exists_literal hliteral
    simp [Normalized.clean, IntegerSpelling.keeps_literal?_iff hliteral]

/-- The 54 bits of `0x20000000000001` lose the last one, and the file mode `-0777` its zero. -/
theorem integer_lost :
    let hexadecimal : IntegerSpelling := ⟨.hexadecimal false, "20000000000001", by decide, by decide⟩
    let mode : IntegerSpelling := ⟨.decimal, "0777", by decide, by decide⟩
    (hexadecimal.written false = "0x20000000000001" ∧ mode.written true = "-0777") ∧
      hexadecimal.value = 9007199254740993 ∧
      normalizeText "0x20000000000001" "recipe.rb" .empty = .clean (.literal (.number 9007199254740992)) ∧
      normalizeText "-0777" "recipe.rb" .empty = .clean (.literal (.number (-777))) ∧
      ¬hexadecimal.Keeps false (normalizeText "0x20000000000001" "recipe.rb" .empty).value ∧
      ¬mode.Keeps true (normalizeText "-0777" "recipe.rb" .empty).value := by
  intro hexadecimal mode
  have hrounds : hexadecimal.Rounds := ⟨by decide, by decide +kernel⟩
  have hloses : mode.LosesMode true := ⟨rfl, by decide, by decide⟩
  refine ⟨⟨by decide, by decide⟩, by decide, ?_, ?_, fun hkept => ?_, fun hkept => ?_⟩
  · have hrounded : Number.rounded hexadecimal.value = 9007199254740992 := by decide +kernel
    have hresult := hexadecimal.normalizeText_written false "recipe.rb" .empty
    rw [IntegerSpelling.literal?, if_neg (by decide), IntegerSpelling.numeral?,
      if_pos ⟨by decide, by decide +kernel⟩, if_neg (by decide), hrounded] at hresult
    exact hresult
  · have hrounded : Number.rounded mode.value = 777 := by decide +kernel
    have hresult := mode.normalizeText_written true "recipe.rb" .empty
    rw [IntegerSpelling.literal?, if_neg (by decide), IntegerSpelling.numeral?,
      if_pos ⟨by decide, by decide +kernel⟩, if_neg (by decide), hrounded] at hresult
    exact hresult
  · exact ((integer_kept_iff hexadecimal false "recipe.rb" .empty).2.2.1 hkept).2.1 hrounds
  · exact ((integer_kept_iff mode true "recipe.rb" .empty).2.2.1 hkept).2.2 hloses

end Cookbook
