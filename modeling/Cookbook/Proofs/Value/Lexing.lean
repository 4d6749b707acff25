import Cookbook.Proofs.Value.Printing

/-!
The tokens of a printed value. Each piece of it is one token, whatever stands in its texts, because a
quoted text ends at the quote that was printed for it and code in a text at the brace printed for it.

* `codeLength_printPath` and `read_segments` are about texts in double quotes;
* `Piece.Fits` says what may follow a piece, `scan_piece` is the step of one piece;
* `Separable.pieces` and `lex_print` are about whole values.
-/

namespace Cookbook

open Canonical (escaped quoted isWord isWordUnit breaks singles)

/-! ### Code in a text -/

theorem codeLength_escape (quote : Option CodeUnit) (depth : Nat) (next : CodeUnit) (rest : Text) :
    codeLength quote depth (('\\' : CodeUnit) :: next :: rest) =
      (codeLength quote depth rest).map (· + 2) := by
  rw [codeLength.eq_def]
  simp only [if_true]

theorem codeLength_inQuotes {c : CodeUnit} (hc : c ≠ CodeUnit.ofChar '\\') (quote : CodeUnit)
    (depth : Nat) (rest : Text) :
    codeLength (some quote) depth (c :: rest) =
      (codeLength (if c = quote then none else some quote) depth rest).map (· + 1) := by
  rw [codeLength.eq_def]
  simp only [hc, if_false]

theorem codeLength_quote (depth : Nat) (rest : Text) :
    codeLength none depth (('\x27' : CodeUnit) :: rest) =
      (codeLength (some '\x27') depth rest).map (· + 1) := by
  rw [codeLength.eq_def]
  rfl

/-- A stretch of code that the search for the closing brace passes. -/
def InCode (code : Text) : Prop :=
  ∀ rest, codeLength none 0 (code ++ rest) = (codeLength none 0 rest).map (· + code.length)

namespace InCode

theorem append {code more : Text} (h : InCode code) (hmore : InCode more) : InCode (code ++ more) := by
  intro rest
  rw [List.append_assoc, h, hmore, Option.map_map, List.length_append]
  congr 1
  funext n
  show n + more.length + code.length = n + (code.length + more.length)
  omega

theorem flatMap {α : Type} {code : α → Text} (h : ∀ a, InCode (code a)) (items : List α) :
    InCode (items.flatMap code) := by
  induction items with
  | nil => exact fun rest => by simp
  | cons a items ih =>
    rw [List.flatMap_cons]
    exact (h a).append ih

theorem unit {c : CodeUnit}
    (hc : (['\\', '\x22', '\x27', '\x7b', '\x7d'] : List CodeUnit).contains c = false) :
    InCode [c] := by
  intro rest
  simp only [List.contains_cons, List.contains_nil, Bool.or_false, Bool.or_eq_false_iff,
    beq_eq_false_iff_ne] at hc
  show codeLength none 0 (c :: rest) = _
  rw [codeLength.eq_def]
  simp only [hc, if_false, or_self]
  rfl

theorem word {w : Text} (hw : ∀ c ∈ w, isWordUnit c = true) : InCode w := by
  induction w with
  | nil => exact fun rest => by simp
  | cons c w ih =>
    have hunit : (['\\', '\x22', '\x27', '\x7b', '\x7d'] : List CodeUnit).contains c = false :=
      Canonical.not_contains_of_isWordUnit (hw c List.mem_cons_self) (by decide)
    exact (unit hunit).append (ih fun d hd => hw d (List.mem_cons_of_mem _ hd))

/-- A text in quotes is passed: its braces do not count, and the quotes in it are hidden. -/
theorem quoted (value : Text) : InCode (quoted value) := by
  have hinside : ∀ value rest : Text,
      codeLength (some '\x27') 0 (escaped value ++ ('\x27' : CodeUnit) :: rest) =
        (codeLength none 0 rest).map (· + ((escaped value).length + 1)) := by
    intro value rest
    induction value with
    | nil => exact codeLength_inQuotes (by decide) _ _ _
    | cons c value ih =>
      by_cases hc : c = '\\' ∨ c = '\x27'
      · have htext : escaped (c :: value) = ('\\' : CodeUnit) :: c :: escaped value := by
          simp [escaped, hc]
        rw [htext, List.cons_append, List.cons_append, codeLength_escape, ih, Option.map_map]
        rfl
      · obtain ⟨hslash, hquote⟩ := not_or.1 hc
        have htext : escaped (c :: value) = c :: escaped value := by
          simp [escaped, hc]
        rw [htext, List.cons_append, codeLength_inQuotes hslash, if_neg hquote, ih, Option.map_map]
        rfl
  intro rest
  have htext : Canonical.quoted value = ('\x27' : CodeUnit) :: (escaped value ++ [('\x27' : CodeUnit)]) :=
    rfl
  rw [htext, List.cons_append, List.append_assoc, codeLength_quote]
  show (codeLength (some '\x27') 0 (escaped value ++ ('\x27' : CodeUnit) :: rest)).map (· + 1) = _
  rw [hinside, Option.map_map]
  simp [Function.comp_def, Nat.add_assoc]

theorem printPath (scope : Scope) (keys : List Text) : InCode (printPath scope keys) := by
  have hkey : ∀ key, InCode (printKey key) := fun key =>
    ((unit (by decide)).append (quoted key)).append (unit (by decide))
  have hword : scope.word.all isWordUnit = true := by
    cases scope <;> decide
  exact (word (List.all_eq_true.1 hword)).append (flatMap hkey keys)

end InCode

theorem codeLength_printPath (scope : Scope) (keys : List Text) (rest : Text) :
    codeLength none 0 (printPath scope keys ++ ('\x7d' : CodeUnit) :: rest) =
      some (printPath scope keys).length := by
  have hbrace : codeLength none 0 (('\x7d' : CodeUnit) :: rest) = some 0 := by
    rw [codeLength.eq_def]
    rfl
  rw [InCode.printPath scope keys, hbrace, Option.map_some, Nat.zero_add]

/-! ### Texts in double quotes -/

theorem StringPart.consText_consText (value more : Text) (parts : List StringPart) :
    consText value (consText more parts) = consText (value ++ more) parts := by
  unfold consText
  by_cases hvalue : value = []
  · simp [hvalue]
  · by_cases hmore : more = []
    · simp [hmore]
    · cases parts with
      | nil => simp [hvalue, hmore]
      | cons part rest => cases part <;> simp [hvalue, hmore]

theorem Quoted.after_after (r : Quoted) (m n : Nat) (value more : Text) :
    (r.after m more).after n value = r.after (m + n) (value ++ more) := by
  simp [after, StringPart.consText_consText, Nat.add_assoc]

theorem Quoted.read_skip (q : Quoting) (pos depth : Nat) (taken rest : Text) :
    read q pos depth taken.length (taken ++ rest) =
      (read q (pos + taken.length) depth 0 rest).after taken.length [] := by
  induction taken generalizing pos with
  | nil => rfl
  | cons c taken ih =>
    rw [List.length_cons, List.cons_append, read, ih, Quoted.after_after, Nat.add_right_comm,
      Nat.add_assoc]
    rfl

namespace Written

abbrev double : Quoting := .quotes '\x22' true

theorem read_escapedDouble (t : Text) (pos : Nat) (rest : Text) :
    Quoted.read double pos 0 0 (escapedDouble t ++ rest) =
      (Quoted.read double (pos + (escapedDouble t).length) 0 0 rest).after (escapedDouble t).length t := by
  induction t generalizing pos with
  | nil => rfl
  | cons c t ih =>
    by_cases hc : c = '\\' ∨ c = '\x22' ∨ c = '#'
    · have htext : escapedDouble (c :: t) = ('\\' : CodeUnit) :: c :: escapedDouble t := by
        simp [escapedDouble, hc]
      have hescape : double.escape c = [c] := by
        rcases hc with rfl | rfl | rfl <;> rfl
      rw [htext, List.cons_append, List.cons_append, Quoted.read_escape, ih, hescape,
        Quoted.after_after, List.length_cons, List.length_cons, Nat.add_assoc pos 2,
        Nat.add_comm 2]
      rfl
    · have htext : escapedDouble (c :: t) = c :: escapedDouble t := by
        simp [escapedDouble, hc]
      simp only [not_or] at hc
      obtain ⟨hslash, hquote, hhash⟩ := hc
      have hcode : double.codeAt? c (escapedDouble t ++ rest) = none := by
        simp [Quoting.codeAt?, hhash]
      rw [htext, List.cons_append, Quoted.read_unit _ _ _ hslash hcode, ih]
      simp [Quoting.quotes, hquote, Quoted.after_after, Nat.add_assoc, Nat.add_comm 1]

/-- A path in a text is code of its own. -/
theorem read_path (scope : Scope) (keys : List Text) (pos : Nat) (rest : Text) :
    Quoted.read double pos 0 0 (printSegment (.path scope keys) ++ rest) =
      let more := Quoted.read double (pos + (printSegment (.path scope keys)).length) 0 0 rest
      ⟨.code (printPath scope keys) (pos + 2) :: more.parts,
        more.length + (printSegment (.path scope keys)).length, more.closed⟩ := by
  have htext : printSegment (.path scope keys) = ('#' : CodeUnit) :: ('\x7b' : CodeUnit) ::
      (printPath scope keys ++ [('\x7d' : CodeUnit)]) := rfl
  have hcode : double.codeAt? '#' (('\x7b' : CodeUnit) ::
      (printPath scope keys ++ [('\x7d' : CodeUnit)]) ++ rest) = some (printPath scope keys).length := by
    have hlength := codeLength_printPath scope keys rest
    rw [List.append_cons] at hlength
    exact hlength
  have hskip := Quoted.read_skip double (pos + 1) 0
    (('\x7b' : CodeUnit) :: (printPath scope keys ++ [('\x7d' : CodeUnit)])) rest
  have hlength : (('\x7b' : CodeUnit) :: (printPath scope keys ++ [('\x7d' : CodeUnit)])).length =
      (printPath scope keys).length + 2 := by
    simp
  rw [hlength] at hskip
  rw [htext, List.cons_append, Quoted.read_code _ _ _ (by decide) hcode, hskip, List.length_cons, hlength]
  simp [Quoted.after, StringPart.consText, Nat.add_assoc, Nat.add_comm 1]

/-- A text that is not empty stays a part of its own before code. -/
theorem consText_templateParts {t : Text} (ht : t ≠ []) {segments : List Value}
    (h : segments.all Value.isSegment = true) (hhead : segments.head?.any Value.isText = false)
    (pos : Nat) : StringPart.consText t (templateParts pos segments) =
      .text t :: templateParts pos segments := by
  cases segments with
  | nil => simp [templateParts, StringPart.consText, ht]
  | cons v rest =>
    rcases Value.isSegment_cases (List.all_eq_true.1 h v List.mem_cons_self) with
      ⟨t', -, rfl⟩ | ⟨scope, keys, -, rfl⟩
    · exact absurd hhead (by simp [Value.isText])
    · simp [templateParts, StringPart.consText, ht]

theorem read_segments {segments : List Value} (h : segments.all Value.isSegment = true)
    (hapart : textsApart segments = true) (pos : Nat) (rest : Text) :
    Quoted.read double pos 0 0 (segments.flatMap printSegment ++ ('\x22' : CodeUnit) :: rest) =
      ⟨templateParts pos segments, (segments.flatMap printSegment).length + 1, true⟩ := by
  induction segments generalizing pos with
  | nil =>
    show Quoted.read double pos 0 0 (('\x22' : CodeUnit) :: rest) = _
    rw [Quoted.read_unit _ _ _ (by decide) rfl]
    rfl
  | cons v segments ih =>
    obtain ⟨hv, hsegments⟩ : v.isSegment = true ∧ segments.all Value.isSegment = true := by
      simpa using h
    obtain ⟨hhead, hrest⟩ := textsApart_cons.1 hapart
    rw [List.flatMap_cons, List.append_assoc, List.length_append]
    rcases Value.isSegment_cases hv with ⟨t, ht, rfl⟩ | ⟨scope, keys, -, rfl⟩
    · show Quoted.read double pos 0 0 (escapedDouble t ++ _) = _
      rw [read_escapedDouble, ih hsegments hrest]
      simp only [Quoted.after, consText_templateParts ht hsegments (hhead rfl), templateParts,
        printSegment]
      congr 1
      omega
    · rw [read_path, ih hsegments hrest]
      simp only [templateParts]
      congr 1
      omega

/-! ### Numbers -/

section Number

variable {digits rest : Text} (hrest : rest.head?.all breaks.contains = true)
  (hdigits : ∀ c ∈ digits, Lexeme.isDigitUnit c = true)

include hrest hdigits

/-- No decimal is written like a number of another base: its second unit is a digit or a break. -/
theorem radixLength?_digits (hne : digits ≠ []) {mark : Char} {digit : CodeUnit → Bool}
    (hmark : ([mark, mark.toUpper].map CodeUnit.ofChar).all
      (fun m => !breaks.contains m && !Lexeme.isDigitUnit m) = true) :
    Lexeme.radixLength? mark digit (digits ++ rest) = none := by
  simp only [List.map_cons, List.map_nil, List.all_cons, List.all_nil, Bool.and_true, Bool.and_eq_true,
    Bool.not_eq_true'] at hmark
  obtain ⟨⟨hlower, hlower'⟩, hupper, hupper'⟩ := hmark
  obtain ⟨z, digits, rfl⟩ := List.exists_cons_of_ne_nil hne
  cases digits with
  | nil =>
    cases rest with
    | nil => rfl
    | cons m rest =>
      have hbreak : ∀ d, breaks.contains d = false → m ≠ d := by
        rintro d hd rfl
        exact Canonical.head?_ne_of_breaks hrest m hd rfl
      simp [Lexeme.radixLength?, hbreak _ hlower, hbreak _ hupper]
  | cons m digits =>
    have hunit : ∀ d, Lexeme.isDigitUnit d = false → m ≠ d := by
      rintro d hd rfl
      rw [hdigits m (List.mem_cons_of_mem z List.mem_cons_self)] at hd
      exact absurd hd (by decide)
    simp [Lexeme.radixLength?, hunit _ hlower', hunit _ hupper']

theorem decimalLength_digits : Lexeme.decimalLength (digits ++ rest) = digits.length := by
  have hbreak := Canonical.head?_ne_of_breaks hrest
  have hrun : Lexeme.run Lexeme.isDigitUnit (digits ++ rest) = digits.length :=
    Canonical.run_append_of_all hdigits (Canonical.head?_any_breaks hrest (by decide))
  have hfraction : Lexeme.fractionLength rest = 0 := by
    unfold Lexeme.fractionLength
    split
    · rename_i p d more
      have hp : p ≠ CodeUnit.ofChar '.' := by simpa using hbreak '.' (by decide)
      simp [hp]
    · rfl
  have hexponent : Lexeme.exponentLength rest = 0 := by
    unfold Lexeme.exponentLength
    split
    · rename_i e more
      have he : e ≠ CodeUnit.ofChar 'e' := by simpa using hbreak 'e' (by decide)
      have hE : e ≠ CodeUnit.ofChar 'E' := by simpa using hbreak 'E' (by decide)
      simp [he, hE]
    · rfl
  unfold Lexeme.decimalLength
  rw [hrun]
  simp [hfraction, hexponent]

theorem number_digits (hne : digits ≠ []) :
    Lexeme.number (digits ++ rest) = ⟨.name .number digits, digits.length⟩ := by
  unfold Lexeme.number
  rw [radixLength?_digits hrest hdigits hne (by decide),
    radixLength?_digits hrest hdigits hne (by decide), decimalLength_digits hrest hdigits]
  simp [Lexeme.spelled]

end Number

/-! ### Steps -/

/-- Whether the text that follows a piece leaves the piece as it is: a word and a number have to end,
and a minus has to stand before a digit. -/
def Piece.Fits : Piece → Text → Prop
  | .string _, _ => True
  | .symbol _, _ => True
  | .template segments, _ => isNormal segments = true
  | .word w, rest => isWord w = true ∧ rest.head?.all breaks.contains = true
  | .number _, rest => rest.head?.all breaks.contains = true
  | .mark t, rest => (∃ c, singles.contains c = true ∧ t = [c]) ∨ t = "=>" ∨
      t = "-" ∧ rest.head?.any CodeUnit.isDigit = true

def put (s : LexState) (pos : Nat) (p : Piece) : LexState :=
  { s with
    tokens := s.tokens.push ⟨p.content pos, pos, pos + p.text.length, p.text, s.spaced⟩
    spaced := false
    atLineStart := false }

section Step

variable (s : LexState) (pos : Nat) {c : CodeUnit} {rest : Text}

theorem push_piece {p : Piece} {taken : Text} (htext : p.text = c :: taken) (rest : Text) :
    { s with atLineStart := false }.push pos (c :: (taken ++ rest)) ⟨p.content pos, taken.length + 1⟩ =
      (put s pos p, taken.length) := by
  have htake : (c :: (taken ++ rest)).take (taken.length + 1) = p.text := by
    rw [htext]
    simp
  unfold LexState.push put
  simp only [htake, Nat.add_sub_cancel]
  rw [htext, List.length_cons]

theorem step_symbol (name rest : Text) :
    s.step pos ':' (quoted name ++ rest) = (put s pos (.symbol name), (quoted name).length) := by
  have hquoted : quoted name ++ rest =
      ('\x27' : CodeUnit) :: (escaped name ++ ('\x27' : CodeUnit) :: rest) := by
    rw [List.append_cons]
    rfl
  have hlength : (quoted name).length = (escaped name).length + 2 := by
    simp [quoted, Text.ofString, Text.ofChar]
  have hpercent : ¬CodeUnit.ofChar ':' = CodeUnit.ofChar '%' := by decide
  have hslash : ¬CodeUnit.ofChar ':' = CodeUnit.ofChar '/' := by decide
  have hcolon : ¬CodeUnit.ofChar '\x27' = CodeUnit.ofChar ':' := by decide
  have hinterpolates : (CodeUnit.ofChar '\x27' == CodeUnit.ofChar '\x22') = false := by decide
  have hsymbol : ({ s with atLineStart := false } : LexState).literal? pos ':' (quoted name ++ rest) =
      some ⟨(Piece.symbol name).content pos, (quoted name).length + 1⟩ := by
    rw [hquoted, hlength]
    simp [LexState.literal?, hpercent, hslash, hcolon, Lexeme.symbol?, hinterpolates,
      Canonical.read_escaped, Piece.content]
  rw [Canonical.step_eq_lexeme s pos (by decide) (Canonical.isEndMark_of_ne (by decide)),
    Canonical.lexeme_eq_push _ pos (by decide), hsymbol, Option.getD_some]
  exact push_piece s pos (p := .symbol name) rfl rest

theorem step_template {segments : List Value} (h : isNormal segments = true) (rest : Text) :
    s.step pos '\x22' (segments.flatMap printSegment ++ [('\x22' : CodeUnit)] ++ rest) =
      (put s pos (.template segments), (segments.flatMap printSegment).length + 1) := by
  simp only [isNormal, Bool.and_eq_true] at h
  obtain ⟨⟨hsegments, -⟩, hapart⟩ := h
  have hread := read_segments hsegments hapart (pos + 1) rest
  rw [List.append_cons] at hread
  have htext : (Piece.template segments).text =
      ('\x22' : CodeUnit) :: (segments.flatMap printSegment ++ [('\x22' : CodeUnit)]) := rfl
  have hpush := push_piece s pos htext rest
  rw [List.length_append] at hpush
  rw [Canonical.step_eq_lexeme s pos (by decide) (Canonical.isEndMark_of_ne (by decide)),
    LexState.lexeme_eq, if_pos (.inr (.inl rfl))]
  unfold LexState.string Quoted.ofText
  dsimp only
  rw [show ((CodeUnit.ofChar '\x22') != (CodeUnit.ofChar '\x27')) = true from by decide, hread,
    if_pos rfl, if_neg (by decide), if_neg (by decide)]
  exact hpush

/-- A number is one token, however it is spelled. -/
theorem step_numeral {t taken : Text} (htext : t = c :: taken) (hdigit : c.isDigit = true)
    (hnumber : Lexeme.number (t ++ rest) = ⟨.name .number t, t.length⟩) :
    s.step pos c (taken ++ rest) =
      ({ s with tokens := s.tokens.push ⟨.name .number t, pos, pos + t.length, t, s.spaced⟩,
                spaced := false, atLineStart := false }, taken.length) := by
  subst htext
  have hunit : isWordUnit c = true := by simp [isWordUnit, hdigit]
  have hne : ∀ d, d.isDigit = false → c ≠ d := by
    rintro d hd rfl
    rw [hdigit] at hd
    exact absurd hd (by decide)
  have hliteral : ({ s with atLineStart := false } : LexState).literal? pos c (taken ++ rest) = none := by
    simp [LexState.literal?, hne '%' (by decide), hne '/' (by decide), hne ':' (by decide)]
  have hplain : ({ s with atLineStart := false } : LexState).plainLexeme c (taken ++ rest) =
      ⟨.name .number (c :: taken), taken.length + 1⟩ := by
    unfold LexState.plainLexeme
    rw [if_pos hdigit]
    exact hnumber
  rw [Canonical.step_eq_lexeme s pos (Canonical.not_contains_of_isWordUnit hunit (by decide))
      (Canonical.isEndMark_of_ne (hne '_' (by decide))),
    Canonical.lexeme_eq_push _ pos (Canonical.not_contains_of_isWordUnit hunit (by decide)), hliteral,
    Option.getD_none, hplain]
  unfold LexState.push
  simp

theorem step_number {n : Nat} {taken : Text} (htext : Text.ofNat n = c :: taken)
    (hrest : rest.head?.all breaks.contains = true) :
    s.step pos c (taken ++ rest) = (put s pos (.number n), taken.length) := by
  have hdigits : ∀ d ∈ Text.ofNat n, Lexeme.isDigitUnit d = true := fun d hd => by
    simp [Lexeme.isDigitUnit, Text.isDigit_of_mem_ofNat hd]
  exact step_numeral s pos htext (Text.isDigit_of_mem_ofNat (htext ▸ List.mem_cons_self))
    (number_digits hrest hdigits (Text.ofNat_ne_nil n))

theorem step_arrow (rest : Text) :
    s.step pos '=' (('>' : CodeUnit) :: rest) = (put s pos (.mark "=>"), 1) := by
  have hblock : LexState.commentBlock? (CodeUnit.ofChar '=' :: CodeUnit.ofChar '>' :: rest) = none := rfl
  have hcont : LexState.isContinuation '=' (('>' : CodeUnit) :: rest) = false := rfl
  have hlexeme : s.step pos '=' (('>' : CodeUnit) :: rest) =
      { s with atLineStart := false }.lexeme pos '=' (('>' : CodeUnit) :: rest) := by
    unfold LexState.step
    rw [hblock, Canonical.isEndMark_of_ne (by decide), hcont, ite_self, Bool.and_false]
    rfl
  have hplain : ({ s with atLineStart := false } : LexState).plainLexeme '=' (('>' : CodeUnit) :: rest) =
      ⟨(Piece.mark "=>").content pos, 2⟩ := rfl
  rw [hlexeme, Canonical.lexeme_eq_push _ pos (by decide)]
  exact push_piece s pos (p := .mark "=>") rfl rest

theorem step_minus {d : CodeUnit} (hd : d.isDigit = true) :
    s.step pos '-' (d :: rest) = (put s pos (.mark "-"), 0) := by
  have hlonger : ∀ q ∈ Lexeme.punctuators, q ≠ [] ∧
      (q.head? = some (CodeUnit.ofChar '-') → q.tail.head?.all CodeUnit.isDigit = false) := by
    decide
  have hfind : Lexeme.punctuators.find? (fun q => q.isPrefixOf (CodeUnit.ofChar '-' :: d :: rest)) =
      none := by
    rw [List.find?_eq_none]
    intro q hq hprefix
    obtain ⟨hnil, hdigit⟩ := hlonger q hq
    obtain ⟨a, q, rfl⟩ := List.exists_cons_of_ne_nil hnil
    simp only [List.isPrefixOf, Bool.and_eq_true, beq_iff_eq] at hprefix
    obtain ⟨rfl, hprefix⟩ := hprefix
    -- a longer punctuator has no digit after its minus
    cases q with
    | nil => exact absurd (hdigit rfl) (by simp)
    | cons b more =>
      simp only [List.isPrefixOf, Bool.and_eq_true, beq_iff_eq] at hprefix
      obtain ⟨rfl, -⟩ := hprefix
      exact absurd (hdigit rfl) (by simp [hd])
  have hpunct : Lexeme.punct (CodeUnit.ofChar '-' :: d :: rest) =
      ⟨(Piece.mark "-").content pos, 1⟩ := by
    unfold Lexeme.punct
    rw [hfind]
    rfl
  rw [Canonical.step_eq_lexeme s pos (by decide) (Canonical.isEndMark_of_ne (by decide)),
    Canonical.lexeme_eq_push _ pos (by decide)]
  show LexState.push _ pos _ (Lexeme.punct (CodeUnit.ofChar '-' :: d :: rest)) = _
  rw [hpunct]
  exact push_piece s pos (p := .mark "-") rfl (d :: rest)

end Step

/-! ### Scans -/

theorem scan_piece {s : LexState} (hdot : s.afterDot = false) {p : Piece} {rest : Text}
    (hfit : p.Fits rest) (pos : Nat) :
    LexState.scan pos 0 s (p.text ++ rest) =
      LexState.scan (pos + p.text.length) 0 (put s pos p) rest := by
  cases p with
  | string value =>
    have hstep := Canonical.step_string s pos value rest
    rw [List.append_cons] at hstep
    refine Canonical.scan_step (escaped value ++ [('\x27' : CodeUnit)]) ?_
    rw [List.length_append]
    exact hstep
  | symbol name => exact Canonical.scan_step (quoted name) (step_symbol s pos name rest)
  | template segments =>
    refine Canonical.scan_step (segments.flatMap printSegment ++ [('\x22' : CodeUnit)]) ?_
    rw [List.length_append]
    exact step_template s pos hfit rest
  | word w =>
    obtain ⟨hword, hrest⟩ := hfit
    cases w with
    | nil => exact absurd hword (by decide)
    | cons c w => exact Canonical.scan_step w (Canonical.step_word s pos hword hrest hdot)
  | number n =>
    obtain ⟨c, taken, htext⟩ := List.exists_cons_of_ne_nil (Text.ofNat_ne_nil n)
    have hscan := Canonical.scan_step taken (step_number s pos htext hfit)
    show LexState.scan pos 0 s (Text.ofNat n ++ rest) =
      LexState.scan (pos + (Text.ofNat n).length) 0 _ rest
    rw [htext]
    exact hscan
  | mark t =>
    rcases hfit with ⟨c, hc, rfl⟩ | rfl | ⟨rfl, hdigit⟩
    · refine Canonical.scan_step [] ?_
      rw [Canonical.step_single s pos hc]
      exact push_piece s pos (p := .mark [c]) rfl rest
    · exact Canonical.scan_step ['>'] (step_arrow s pos rest)
    · cases rest with
      | nil => exact absurd hdigit (by decide)
      | cons d rest => exact Canonical.scan_step [] (step_minus s pos hdigit)

theorem afterDot_put (s : LexState) (pos : Nat) {p : Piece} {rest : Text} (hfit : p.Fits rest) :
    (put s pos p).afterDot = false := by
  unfold LexState.afterDot put
  rw [Array.back?_push, Option.any_some]
  cases p with
  | string value => rfl
  | symbol name => rfl
  | template segments => rfl
  | word w =>
    simp only [Token.isPunct, Token.isOneOf, Piece.content]
    cases keywords.contains w <;> rfl
  | number n => rfl
  | mark t =>
    have hsingles : singles.all (fun c => !([".", "&."] : List Text).contains [c]) = true := by decide
    rcases hfit with ⟨c, hc, rfl⟩ | rfl | ⟨rfl, -⟩
    · have hdot := List.all_eq_true.1 hsingles c (List.contains_iff_mem.1 hc)
      rw [Bool.not_eq_true'] at hdot
      exact hdot
    · rfl
    · rfl

theorem scan_placed {s : LexState} (hs : Canonical.Ready s) {p : Placed} {rest : Text}
    (hfit : p.piece.Fits rest) (pos : Nat) :
    ∃ s', Canonical.Ready s' ∧ s'.tokens = s.tokens.push (p.token pos) ∧ s'.problems = s.problems ∧
      LexState.scan pos 0 s (p.text ++ rest) = LexState.scan (pos + p.text.length) 0 s' rest := by
  obtain ⟨spaced, piece⟩ := p
  cases spaced with
  | false =>
    refine ⟨put s pos piece, ⟨hs.pending, rfl, afterDot_put s pos hfit⟩, ?_, rfl,
      scan_piece hs.afterDot hfit pos⟩
    unfold put
    rw [hs.spaced]
    rfl
  | true =>
    let s₁ : LexState := { s with spaced := true, atLineStart := false }
    refine ⟨put s₁ (pos + 1) piece, ⟨hs.pending, rfl, afterDot_put s₁ (pos + 1) hfit⟩, rfl, rfl, ?_⟩
    have hspace := Canonical.scan_step [] (Canonical.step_space s pos (piece.text ++ rest))
    have hpiece := scan_piece (s := s₁) hs.afterDot hfit (pos + 1)
    have hlength : pos + (PlacedPiece.mk true piece).text.length = pos + 1 + piece.text.length := by
      simp [PlacedPiece.text, PlacedPiece.blank, Text.ofString, Text.ofChar, Nat.add_assoc, Nat.add_comm 1]
    rw [hlength]
    exact hspace.trans hpiece

/-- Whether each piece fits what follows it, up to a text after the last. -/
def AllFit : List Placed → Text → Prop
  | [], _ => True
  | p :: more, rest => p.piece.Fits (printed more ++ rest) ∧ AllFit more rest

theorem allFit_append {pieces more : List Placed} {rest : Text} :
    AllFit (pieces ++ more) rest ↔ AllFit pieces (printed more ++ rest) ∧ AllFit more rest := by
  induction pieces with
  | nil => simp [AllFit]
  | cons p pieces ih =>
    simp only [List.cons_append, AllFit, ih, printed_append, List.append_assoc, and_assoc]

theorem scan_printed {s : LexState} (hs : Canonical.Ready s) {pieces : List Placed} {rest : Text}
    (h : AllFit pieces rest) (pos : Nat) :
    ∃ s', Canonical.Ready s' ∧ s'.tokens.toList = s.tokens.toList ++ layout pos pieces ∧
      s'.problems = s.problems ∧
      LexState.scan pos 0 s (printed pieces ++ rest) =
        LexState.scan (pos + (printed pieces).length) 0 s' rest := by
  induction pieces generalizing s pos with
  | nil => exact ⟨s, hs, (List.append_nil _).symm, rfl, rfl⟩
  | cons p more ih =>
    obtain ⟨hfit, hmore⟩ := h
    obtain ⟨s₁, hs₁, htokens₁, hproblems₁, hscan₁⟩ := scan_placed hs hfit pos
    obtain ⟨s₂, hs₂, htokens₂, hproblems₂, hscan₂⟩ := ih hs₁ hmore (pos + p.text.length)
    refine ⟨s₂, hs₂, ?_, hproblems₂.trans hproblems₁, ?_⟩
    · rw [htokens₂, htokens₁, Array.toList_push, List.append_assoc]
      rfl
    · rw [printed_cons, List.append_assoc, hscan₁, hscan₂, List.length_append, Nat.add_assoc]

/-- A text of pieces has their tokens, and nothing is wrong with it. -/
theorem lex_printed {pieces : List Placed} (h : AllFit pieces []) (base : Nat) :
    lex (printed pieces) base = ⟨layout base pieces, []⟩ := by
  obtain ⟨s, hs, htokens, hproblems, hscan⟩ := scan_printed (s := .start) ⟨rfl, rfl, rfl⟩ h base
  have hend : LexState.scan base 0 .start (printed pieces) = s := by
    rw [List.append_nil] at hscan
    rw [hscan, LexState.scan, hs.pending]
    obtain ⟨tokens, problems, pending, spaced, atLineStart⟩ := s
    obtain rfl : pending = [] := hs.pending
    rfl
  unfold lex
  rw [hend]
  dsimp only
  rw [htokens, hproblems]
  rfl

/-! ### Whole values -/

/-- A run of pieces that fits before any text that a break starts, and at the end. -/
def Separable (run : List Placed) : Prop :=
  ∀ rest : Text, rest.head?.all breaks.contains = true → AllFit run rest

namespace Separable

theorem single (spaced : Bool) (p : Piece)
    (h : ∀ rest : Text, rest.head?.all breaks.contains = true → p.Fits rest) :
    Separable [⟨spaced, p⟩] :=
  fun rest hrest => ⟨h rest hrest, trivial⟩

/-- Runs one after another, where a break starts each but the first. -/
theorem append {run more : List Placed} (h : Separable run) (hmore : Separable more)
    (hbreak : (printed more).head?.any breaks.contains = true) : Separable (run ++ more) := by
  intro rest hrest
  refine allFit_append.2 ⟨h _ ?_, hmore rest hrest⟩
  cases hprinted : printed more with
  | nil => exact absurd hbreak (by rw [hprinted]; exact Bool.false_ne_true)
  | cons c text =>
    rw [hprinted] at hbreak
    exact hbreak

theorem mark {c : CodeUnit} (hc : singles.contains c = true) (spaced : Bool) :
    Separable [⟨spaced, .mark [c]⟩] :=
  single spaced (.mark [c]) fun _ _ => .inl ⟨c, hc, rfl⟩

theorem commaSeparated {runs : List (List Placed)} (h : ∀ run ∈ runs, Separable run) :
    Separable (commaSeparated runs) := by
  induction runs with
  | nil => exact fun _ _ => trivial
  | cons run runs ih =>
    cases runs with
    | nil =>
      have hrun := h run List.mem_cons_self
      simpa [Written.commaSeparated] using hrun
    | cons next runs =>
      have hmore := ih fun run hrun => h run (List.mem_cons_of_mem _ hrun)
      unfold Written.commaSeparated at hmore ⊢
      rw [List.intercalate_cons_cons, List.append_assoc]
      refine (h run List.mem_cons_self).append ?_ rfl
      exact fun rest hrest => ⟨.inl ⟨',', by decide, rfl⟩, hmore rest hrest⟩

theorem enclosed (spaced : Bool) {opener closer : CodeUnit} (hopener : singles.contains opener = true)
    (hcloser : singles.contains closer = true) (hbreak : breaks.contains closer = true)
    {runs : List (List Placed)} (h : ∀ run ∈ runs, Separable run) :
    Separable (enclosed spaced [opener] [closer] runs) := by
  intro rest hrest
  exact ⟨.inl ⟨opener, hopener, rfl⟩,
    (commaSeparated h).append (mark hcloser false) hbreak rest hrest⟩

theorem keys (keys : List Text) : Separable (keys.flatMap keyPieces) := by
  intro rest hrest
  induction keys with
  | nil => exact trivial
  | cons key keys ih =>
    exact ⟨.inl ⟨'[', by decide, rfl⟩, trivial, .inl ⟨']', by decide, rfl⟩, ih⟩

theorem pathPieces (spaced : Bool) (scope : Scope) (keys : List Text) :
    Separable (pathPieces spaced scope keys) := by
  have hword : isWord scope.word = true := by
    cases scope <;> decide
  have hbreak : ∀ rest : Text, rest.head?.all breaks.contains = true →
      (printed (keys.flatMap keyPieces) ++ rest).head?.all breaks.contains = true := by
    intro rest hrest
    cases keys with
    | nil => exact hrest
    | cons key keys => rfl
  exact fun rest hrest => ⟨⟨hword, hbreak rest hrest⟩, Separable.keys keys rest hrest⟩

theorem intPieces (spaced : Bool) (n : Int) : Separable (intPieces spaced n) := by
  have hnumber : Separable [⟨false, .number n.natAbs⟩] := 
    single false (.number n.natAbs) fun _ hrest => hrest
  have hdigit : ∀ rest : Text, (Text.ofNat n.natAbs ++ rest).head?.any CodeUnit.isDigit = true := by
    intro rest
    obtain ⟨c, taken, htext⟩ := List.exists_cons_of_ne_nil (Text.ofNat_ne_nil n.natAbs)
    rw [htext]
    exact Text.isDigit_of_mem_ofNat (n := n.natAbs) (htext ▸ List.mem_cons_self)
  unfold Written.intPieces
  split
  · intro rest hrest
    refine ⟨.inr (.inr ⟨rfl, ?_⟩), hnumber rest hrest⟩
    simpa [printed, PlacedPiece.text, PlacedPiece.blank, Piece.text] using hdigit rest
  · exact single spaced (.number n.natAbs) fun _ hrest => hrest

theorem pieces {v : Value} (h : v.isPrintable = true) (spaced : Bool) : Separable (pieces spaced v) := by
  revert spaced
  apply Value.printable_ind (h := h)
  case text => exact fun t spaced => single spaced (.string t) fun _ _ => trivial
  case number => exact fun n _ spaced => intPieces spaced n.num
  case bool =>
    intro b spaced
    refine single spaced (.word _) fun rest hrest => ⟨?_, hrest⟩
    cases b <;> decide
  case nil => exact fun spaced => single spaced (.word "nil") fun rest hrest => ⟨by decide, hrest⟩
  case symbol => exact fun name spaced => single spaced (.symbol name) fun _ _ => trivial
  case path => exact fun scope keys _ spaced => pathPieces spaced scope keys
  case interpolation =>
    exact fun segments hsegments spaced => single spaced (.template segments) fun _ _ => hsegments
  case list =>
    intro items _ ih spaced
    rw [pieces_list]
    refine enclosed spaced (by decide) (by decide) (by decide) fun run hrun => ?_
    obtain ⟨spaced', v, hv, rfl⟩ := mem_runsOf hrun
    exact ih v hv spaced'
  case map =>
    intro entries _ ih spaced
    rw [pieces_map]
    refine enclosed spaced (by decide) (by decide) (by decide) fun run hrun => ?_
    obtain ⟨spaced', e, he, rfl⟩ := mem_runsOf hrun
    exact fun rest hrest => ⟨trivial, .inr (.inl rfl), ih e he true rest hrest⟩

end Separable

/-- A printed value has the tokens of its pieces, and nothing is wrong with it. -/
theorem lex_print {v : Value} (h : v.isPrintable = true) (base : Nat) :
    lex v.print base = ⟨layout base (pieces false v), []⟩ := by
  have hprinted : printed (pieces false v) = v.print := printed_pieces h false
  rw [← hprinted]
  exact lex_printed (Separable.pieces h false [] rfl) base

theorem isNewline_layout {base : Nat} {pieces : List Placed} :
    ∀ t ∈ layout base pieces, t.isNewline = false := by
  induction pieces generalizing base with
  | nil => exact fun t ht => absurd ht List.not_mem_nil
  | cons p rest ih =>
    intro t ht
    rcases List.mem_cons.1 ht with rfl | ht
    · obtain ⟨spaced, piece⟩ := p
      cases piece <;> rfl
    · exact ih t ht

theorem lexInline_printPath (scope : Scope) (keys : List Text) (base : Nat) :
    lexInline (printPath scope keys) base = layout base (pathPieces false scope keys) := by
  have hprinted : printed (pathPieces false scope keys) = printPath scope keys :=
    printed_pathPieces false scope keys
  have hlex := lex_printed (Separable.pathPieces false scope keys [] rfl) base
  rw [hprinted] at hlex
  unfold lexInline
  rw [hlex]
  exact List.filter_eq_self.2 fun t ht => by rw [isNewline_layout t ht]; rfl

end Written

end Cookbook
