import Cookbook.Proofs.Canonical.Recipe
import Cookbook.Proofs.Printed
import Cookbook.Proofs.Token.Shift

/-!
The tokens of printed pieces. A text made of words, quoted strings, symbols, brackets, commas and
newlines, with blanks where they are needed, has one token for each piece.

* `Piece` and `Placed` are the pieces;
* `scan_placed` is one piece, `lex_printed` a whole text.
-/

namespace Cookbook

namespace Canonical

/-! ### Pieces -/

/-- A piece of a printed recipe. -/
inductive Piece where
  | word (text : Text)
  | string (value : Text)
  | symbol (name : Text)
  | opener
  | closer
  | comma
  | newline
deriving DecidableEq

namespace Piece

def text : Piece → Text
  | word text => text
  | string value => quoted value
  | symbol name => ':' :: name
  | opener => "["
  | closer => "]"
  | comma => ","
  | newline => "\n"

def content : Piece → TokenContent
  | word text => .name (if keywords.contains text then .keyword else .ident) text
  | string value => .string .single (StringPart.consText value [])
  | symbol name => .name .symbol name
  | opener => .name .punct "["
  | closer => .name .punct "]"
  | comma => .name .punct ","
  | newline => .newline

/-- Whether a piece ends only where a name does. -/
def isName : Piece → Bool
  | word _ | symbol _ => true
  | _ => false

/-- Whether a piece starts with a unit that ends a name. -/
def isMark : Piece → Bool
  | opener | closer | comma | newline => true
  | _ => false

def isSpelled : Piece → Bool
  | word text => isWord text
  | symbol name => isWord name
  | _ => true

end Piece

instance : IsPiece Piece := ⟨Piece.text, fun _ => Piece.content⟩

@[simp] theorem isPiece_text (p : Piece) : IsPiece.text p = p.text := rfl

@[simp] theorem isPiece_content (pos : Nat) (p : Piece) : IsPiece.content pos p = p.content := rfl

abbrev Placed := PlacedPiece Piece

/-- Whether every name is a word that ends where its piece does, and no newline has a blank before
it. -/
def wellSpaced : List Placed → Bool
  | [] => true
  | p :: rest =>
    p.piece.isSpelled && !(p.spaced && p.piece == .newline) &&
      (!p.piece.isName || rest.head?.any fun q => q.spaced || q.piece.isMark) && wellSpaced rest

theorem wellSpaced_append {pieces more : List Placed} (h : wellSpaced pieces = true)
    (hmore : wellSpaced more = true) : wellSpaced (pieces ++ more) = true := by
  induction pieces with
  | nil => exact hmore
  | cons p rest ih =>
    simp only [wellSpaced, Bool.and_eq_true, List.cons_append] at h ⊢
    obtain ⟨⟨hp, hnext⟩, hrest⟩ := h
    refine ⟨⟨hp, ?_⟩, ih hrest⟩
    cases rest with
    | nil => simpa using Or.inl (by simpa using hnext)
    | cons q rest => exact hnext

/-! ### Units -/

theorem ne_of_isWordUnit {c d : CodeUnit} (hc : isWordUnit c = true) (hd : isWordUnit d = false) :
    c ≠ d := by
  rintro rfl
  rw [hc] at hd
  exact absurd hd (by decide)

theorem not_contains_of_isWordUnit {c : CodeUnit} {units : List CodeUnit} (hc : isWordUnit c = true)
    (hunits : units.all (!isWordUnit ·) = true) : units.contains c = false := by
  by_contra h
  have hmem := List.contains_iff_mem.1 (Bool.not_eq_false _ ▸ h)
  have hnot : isWordUnit c = false := by simpa using List.all_eq_true.1 hunits c hmem
  exact ne_of_isWordUnit hc hnot rfl

theorem isIdentUnit_of_isWordUnit {c : CodeUnit} (h : isWordUnit c = true) :
    c.isIdentUnit = true := by
  unfold isWordUnit at h
  simp only [CodeUnit.isIdentUnit, CodeUnit.isIdentStart, CodeUnit.isNameStart, CodeUnit.isLetter,
    Bool.or_eq_true] at h ⊢
  tauto

theorem not_isUpper_of_isWordUnit {c : CodeUnit} (h : isWordUnit c = true) : c.isUpper = false := by
  unfold isWordUnit CodeUnit.isLower CodeUnit.isDigit at h
  unfold CodeUnit.isUpper
  simp only [Bool.or_eq_true, Bool.and_eq_true, decide_eq_true_eq, beq_iff_eq,
    Bool.and_eq_false_iff, decide_eq_false_iff_not, UInt16.le_iff_toNat_le] at h ⊢
  rcases h with (h | h) | rfl
  · right; simp at h ⊢; omega
  · left; simp at h ⊢; omega
  · right; decide

/-- The units that may follow a name. -/
def breaks : List CodeUnit := [' ', '\n', '[', ']', ')', '\x7d', ',']

theorem head?_any_breaks {rest : Text} (h : rest.head?.all breaks.contains = true)
    {p : CodeUnit → Bool} (hp : breaks.all (!p ·) = true) : rest.head?.any p = false := by
  cases rest with
  | nil => rfl
  | cons c rest => simpa using List.all_eq_true.1 hp c (by simpa using h)

theorem head?_ne_of_breaks {rest : Text} (h : rest.head?.all breaks.contains = true) (d : CodeUnit)
    (hd : breaks.contains d = false) : rest.head? ≠ some d := by
  intro heq
  rw [heq, Option.all_some, hd] at h
  exact absurd h (by decide)

theorem run_append_of_all {p : CodeUnit → Bool} {w rest : Text} (hw : ∀ c ∈ w, p c = true)
    (hrest : rest.head?.any p = false) : Lexeme.run p (w ++ rest) = w.length := by
  have hnil : rest.takeWhile p = [] := by
    cases rest with
    | nil => rfl
    | cons c rest => simp [show p c = false from hrest]
  unfold Lexeme.run
  rw [List.takeWhile_append_of_pos hw, hnil, List.append_nil]

section Word

variable {c : CodeUnit} {w rest : Text} (hw : isWord (c :: w) = true)

include hw

theorem isWordUnit_of_isWord : ∀ u ∈ c :: w, isWordUnit u = true := by
  simp only [isWord, Bool.and_eq_true] at hw
  exact List.all_eq_true.1 hw.2

theorem isWordUnit_head : isWordUnit c = true := isWordUnit_of_isWord hw c List.mem_cons_self

theorem not_isDigit_head : c.isDigit = false := by
  simp only [isWord, Bool.and_eq_true, Bool.not_eq_true'] at hw
  exact hw.1

theorem isIdentStart_head : c.isIdentStart = true := by
  have hunit := isIdentUnit_of_isWordUnit (isWordUnit_head hw)
  unfold CodeUnit.isIdentUnit at hunit
  rw [not_isDigit_head hw, Bool.or_false] at hunit
  exact hunit

variable (hrest : rest.head?.all breaks.contains = true)

include hrest

theorem run_word : Lexeme.run CodeUnit.isIdentUnit (c :: w ++ rest) = w.length + 1 :=
  run_append_of_all (fun u hu => isIdentUnit_of_isWordUnit (isWordUnit_of_isWord hw u hu))
    (head?_any_breaks hrest (by decide))

theorem wordLength_word : Lexeme.wordLength (c :: w ++ rest) = w.length + 1 := by
  have hbreak := head?_ne_of_breaks hrest
  unfold Lexeme.wordLength
  rw [run_word hw hrest]
  dsimp only
  rw [show w.length + 1 = (c :: w).length from rfl, List.drop_left]
  cases rest with
  | nil => rfl
  | cons m rest =>
    have hq := hbreak '?' (by decide)
    have hb := hbreak '!' (by decide)
    simp only [List.head?_cons, ne_eq, Option.some.injEq] at hq hb
    simp [hq, hb]

theorem symbolLength_word : Lexeme.symbolLength (c :: w ++ rest) = w.length + 1 := by
  have hbreak := head?_ne_of_breaks hrest
  unfold Lexeme.symbolLength
  rw [run_word hw hrest]
  dsimp only
  rw [show w.length + 1 = (c :: w).length from rfl, List.drop_left]
  cases rest with
  | nil => rfl
  | cons m rest =>
    have hq := hbreak '?' (by decide)
    have hb := hbreak '!' (by decide)
    have he := hbreak '=' (by decide)
    simp only [List.head?_cons, ne_eq, Option.some.injEq] at hq hb he
    simp [hq, hb, he]

theorem lexeme_word :
    Lexeme.word false (c :: w ++ rest) = ⟨(Piece.word (c :: w)).content, w.length + 1⟩ := by
  have hlabel : Lexeme.startsLabelColon rest = false := by
    have hcolon := head?_ne_of_breaks hrest ':' (by decide)
    cases rest with
    | nil => rfl
    | cons m rest =>
      simp only [List.head?_cons, ne_eq, Option.some.injEq] at hcolon
      simp [Lexeme.startsLabelColon, hcolon]
  have hupper := not_isUpper_of_isWordUnit (isWordUnit_head hw)
  unfold Lexeme.word
  rw [wordLength_word hw hrest]
  dsimp only
  rw [show w.length + 1 = (c :: w).length from rfl, List.drop_left, List.take_left, hlabel]
  unfold Lexeme.spelled
  rw [List.take_left, List.head?_cons, Option.any_some, hupper]
  simp only [Piece.content]
  cases keywords.contains (c :: w) <;> rfl

end Word

theorem isPrefixOf_eq_false {pattern t : Text} (h : pattern.head? ≠ t.head?) (hp : pattern ≠ []) :
    pattern.isPrefixOf t = false := by
  cases pattern with
  | nil => exact absurd rfl hp
  | cons a pattern =>
    cases t with
    | nil => rfl
    | cons b t =>
      have hab : a ≠ b := fun hab => h (by rw [hab]; rfl)
      simp [List.isPrefixOf, hab]

theorem commentBlock?_of_ne {c : CodeUnit} {rest : Text} (hc : c ≠ CodeUnit.ofChar '=') :
    LexState.commentBlock? (c :: rest) = none := by
  have hmark : ("=begin" : Text).isPrefixOf (c :: rest) = false :=
    isPrefixOf_eq_false (fun h => hc (Option.some.inj h).symm) (by decide)
  unfold LexState.commentBlock?
  rw [hmark, Bool.false_and]
  rfl

theorem isEndMark_of_ne {c : CodeUnit} {rest : Text} (hc : c ≠ CodeUnit.ofChar '_') :
    LexState.isEndMark (c :: rest) = false := by
  have hmark : ("__END__" : Text).isPrefixOf (c :: rest) = false :=
    isPrefixOf_eq_false (fun h => hc (Option.some.inj h).symm) (by decide)
  unfold LexState.isEndMark
  rw [hmark, Bool.false_and]

/-- No word starts the mark that ends a program: the mark has capitals. -/
theorem isEndMark_word {w rest : Text} (hw : ∀ u ∈ w, isWordUnit u = true)
    (hrest : rest.head?.all breaks.contains = true) : LexState.isEndMark (w ++ rest) = false := by
  have hbreak := head?_ne_of_breaks hrest
  have hE : ∀ u ∈ w, u ≠ (CodeUnit.ofChar 'E') := fun u hu => ne_of_isWordUnit (hw u hu) (by decide)
  have hmark : ("__END__" : Text) = (['_', '_', 'E', 'N', 'D', '_', '_'] : List CodeUnit) := rfl
  have hmark : ("__END__" : Text).isPrefixOf (w ++ rest) = false := by
    rw [hmark]
    rcases w with - | ⟨a, - | ⟨b, - | ⟨c, w⟩⟩⟩
    · exact isPrefixOf_eq_false (fun h => hbreak '_' (by decide) h.symm) (by simp)
    · have := isPrefixOf_eq_false (fun h => hbreak '_' (by decide) h.symm)
        (by simp : (['_', 'E', 'N', 'D', '_', '_'] : Text) ≠ [])
      simp only [List.cons_append, List.nil_append, List.isPrefixOf, this, Bool.and_false]
    · have := isPrefixOf_eq_false (fun h => hbreak 'E' (by decide) h.symm)
        (by simp : (['E', 'N', 'D', '_', '_'] : Text) ≠ [])
      simp only [List.cons_append, List.nil_append, List.isPrefixOf, this, Bool.and_false]
    · have : (['E', 'N', 'D', '_', '_'] : List CodeUnit).isPrefixOf (c :: (w ++ rest)) = false :=
        isPrefixOf_eq_false (fun h => hE c (by simp) (Option.some.inj h).symm) (by simp)
      rw [List.cons_append, List.cons_append, List.cons_append, List.isPrefixOf, List.isPrefixOf, this,
        Bool.and_false, Bool.and_false]
  unfold LexState.isEndMark
  rw [hmark, Bool.false_and]

/-! ### Steps -/

def put (s : LexState) (pos : Nat) (p : Piece) : LexState :=
  { s with
    tokens := s.tokens.push ⟨p.content, pos, pos + p.text.length, p.text, s.spaced⟩
    spaced := false
    atLineStart := p == .newline }

section Step

variable (s : LexState) (pos : Nat) {c : CodeUnit} {rest : Text}

/-- The units at which a step is more than one lexeme. -/
def specials : List CodeUnit := [' ', '\t', '\r', '\\', '#', '\n', '=']

theorem step_eq_lexeme (hc : specials.contains c = false)
    (hmark : LexState.isEndMark (c :: rest) = false) :
    s.step pos c rest = { s with atLineStart := false }.lexeme pos c rest := by
  have hne : ∀ d ∈ specials, c ≠ d := by
    rintro d hd rfl
    rw [List.contains_iff_mem.2 hd] at hc
    exact absurd hc (by decide)
  have hcont : LexState.isContinuation c rest = false := by
    simp [LexState.isContinuation, hne '\\' (by decide)]
  unfold LexState.step
  rw [commentBlock?_of_ne (hne '=' (by decide)), hmark, hcont]
  simp [hne ' ' (by decide), hne '\t' (by decide), hne '\r' (by decide), hne '#' (by decide),
    hne '\n' (by decide)]

theorem lexeme_eq_push (hc : (['\x27', '\x22', '\x60', '<'] : List CodeUnit).contains c = false) :
    s.lexeme pos c rest =
      s.push pos (c :: rest) ((s.literal? pos c rest).getD (s.plainLexeme c rest)) := by
  simp only [List.contains_cons, List.contains_nil, Bool.or_false, Bool.or_eq_false_iff,
    beq_eq_false_iff_ne] at hc
  have hopener : s.opener? c rest = none := by
    unfold LexState.opener? Lexeme.heredoc?
    cases rest <;> simp [hc.2.2.2]
  rw [LexState.lexeme_eq, hopener]
  simp [hc.1, hc.2.1, hc.2.2.1]

theorem push_piece {p : Piece} {taken : Text} (htext : p.text = c :: taken)
    (hp : (p == .newline) = false) (rest : Text) :
    { s with atLineStart := false }.push pos (c :: (taken ++ rest)) ⟨p.content, taken.length + 1⟩ =
      (put s pos p, taken.length) := by
  have htake : (c :: (taken ++ rest)).take (taken.length + 1) = p.text := by
    rw [htext]
    simp
  unfold LexState.push put
  simp only [htake, hp, Nat.add_sub_cancel]
  rw [htext, List.length_cons]

theorem step_word {w : Text} (hw : isWord (c :: w) = true)
    (hrest : rest.head?.all breaks.contains = true) (hdot : s.afterDot = false) :
    s.step pos c (w ++ rest) = (put s pos (.word (c :: w)), w.length) := by
  have hunit := isWordUnit_head hw
  have hne : ∀ d, isWordUnit d = false → c ≠ d := fun d hd => ne_of_isWordUnit hunit hd
  have hmark : LexState.isEndMark (c :: (w ++ rest)) = false :=
    isEndMark_word (isWordUnit_of_isWord hw) hrest
  have hliteral : ({ s with atLineStart := false } : LexState).literal? pos c (w ++ rest) = none := by
    simp [LexState.literal?, hne '%' (by decide), hne '/' (by decide), hne ':' (by decide)]
  have hplain : ({ s with atLineStart := false } : LexState).plainLexeme c (w ++ rest) =
      ⟨(Piece.word (c :: w)).content, w.length + 1⟩ := by
    have hdot' : ({ s with atLineStart := false } : LexState).afterDot = false := hdot
    unfold LexState.plainLexeme
    rw [not_isDigit_head hw, isIdentStart_head hw, hdot', ← lexeme_word hw hrest]
    simp [hne '@' (by decide), hne '$' (by decide)]
  rw [step_eq_lexeme s pos (not_contains_of_isWordUnit hunit (by decide)) hmark,
    lexeme_eq_push _ pos (not_contains_of_isWordUnit hunit (by decide)), hliteral, Option.getD_none,
    hplain]
  exact push_piece s pos rfl rfl rest

theorem read_escaped (value : Text) :
    Quoted.ofText (.quotes '\x27' false) pos (escaped value ++ ('\x27' : CodeUnit) :: rest) =
      ⟨StringPart.consText value [], (escaped value).length + 1, true⟩ := by
  have hcode : ∀ c rest, (Quoting.quotes '\x27' false).codeAt? c rest = none := fun _ _ => rfl
  unfold Quoted.ofText
  induction value generalizing pos with
  | nil =>
    show Quoted.read _ pos 0 0 (('\x27' : CodeUnit) :: rest) = _
    rw [Quoted.read_unit _ _ _ (by decide) (hcode _ _)]
    rfl
  | cons c value ih =>
    have hcons : ∀ n, (Quoted.mk (StringPart.consText value []) ((escaped value).length + 1) true).after n
        [c] = ⟨StringPart.consText (c :: value) [], (escaped value).length + 1 + n, true⟩ := by
      intro n
      cases value <;> rfl
    by_cases hc : c = '\\' ∨ c = '\x27'
    · have htext : escaped (c :: value) = ('\\' : CodeUnit) :: c :: escaped value := by
        simp [escaped, hc]
      have hescape : (Quoting.quotes '\x27' false).escape c = [c] := by
        rcases hc with rfl | rfl <;> rfl
      rw [htext, List.cons_append, List.cons_append, Quoted.read_escape, ih, hescape, hcons]
      simp
    · obtain ⟨hslash, hquote⟩ := not_or.1 hc
      have htext : escaped (c :: value) = c :: escaped value := by
        simp [escaped, hc]
      rw [htext, List.cons_append, Quoted.read_unit _ _ _ hslash (hcode _ _), ih]
      simp [Quoting.quotes, hquote, hcons]

theorem step_string (value rest : Text) :
    s.step pos '\x27' (escaped value ++ ('\x27' : CodeUnit) :: rest) =
      (put s pos (.string value), (escaped value).length + 1) := by
  have htext : (Piece.string value).text =
      ('\x27' : CodeUnit) :: (escaped value ++ [('\x27' : CodeUnit)]) := rfl
  have hpush := push_piece s pos htext rfl rest
  rw [List.length_append, List.append_assoc] at hpush
  rw [step_eq_lexeme s pos (by decide) (isEndMark_of_ne (by decide)), LexState.lexeme_eq,
    if_pos (.inl rfl)]
  unfold LexState.string
  dsimp only
  rw [show ((CodeUnit.ofChar '\x27') != (CodeUnit.ofChar '\x27')) = false from by decide,
    read_escaped, if_pos rfl, if_pos rfl]
  exact hpush

theorem step_symbol {w : Text} (hw : isWord (c :: w) = true)
    (hrest : rest.head?.all breaks.contains = true) :
    s.step pos ':' (c :: (w ++ rest)) = (put s pos (.symbol (c :: w)), w.length + 1) := by
  have hunit := isWordUnit_head hw
  have hne : ∀ d, isWordUnit d = false → c ≠ d := fun d hd => ne_of_isWordUnit hunit hd
  have hsymbol : ({ s with atLineStart := false } : LexState).literal? pos ':' (c :: (w ++ rest)) =
      some ⟨(Piece.symbol (c :: w)).content, w.length + 2⟩ := by
    have hlength := symbolLength_word hw hrest
    rw [List.cons_append] at hlength
    have hpercent : ¬CodeUnit.ofChar ':' = CodeUnit.ofChar '%' := by decide
    have hslash : ¬CodeUnit.ofChar ':' = CodeUnit.ofChar '/' := by decide
    unfold LexState.literal? Lexeme.symbol?
    simp [hpercent, hslash, hne ':' (by decide), hne '\x22' (by decide), hne '\x27' (by decide),
      isIdentStart_head hw, hlength, Piece.content]
  rw [step_eq_lexeme s pos (by decide) (isEndMark_of_ne (by decide)), lexeme_eq_push _ pos (by decide),
    hsymbol, Option.getD_some]
  exact push_piece s pos (p := .symbol (c :: w)) rfl rfl rest

/-- The brackets and the comma: punctuators that start no longer one. -/
def singles : List CodeUnit := ['(', ')', '[', ']', '\x7b', '\x7d', ',']

theorem step_single (hc : singles.contains c = true) :
    s.step pos c rest = { s with atLineStart := false }.push pos (c :: rest) ⟨.name .punct [c], 1⟩ := by
  have hfacts : specials.contains c = false ∧ c ≠ CodeUnit.ofChar '_' ∧
      (['\x27', '\x22', '\x60', '<'] : List CodeUnit).contains c = false ∧
      (['%', '/', ':', '@', '$'] : List CodeUnit).all (c != ·) = true ∧ c.isDigit = false ∧
      c.isIdentStart = false ∧ ∀ q ∈ Lexeme.punctuators, q.head? ≠ some c ∧ q ≠ [] := by
    have hmem := List.contains_iff_mem.1 hc
    simp only [singles, List.mem_cons, List.not_mem_nil, or_false] at hmem
    rcases hmem with rfl | rfl | rfl | rfl | rfl | rfl | rfl <;> decide
  obtain ⟨hspecial, hmark, hquote, hothers, hdigit, hident, hpuncts⟩ := hfacts
  have hne : ∀ d : CodeUnit, (['%', '/', ':', '@', '$'] : List CodeUnit).contains d = true → c ≠ d :=
    fun d hd => bne_iff_ne.1 (List.all_eq_true.1 hothers d (List.contains_iff_mem.1 hd))
  have hliteral : ({ s with atLineStart := false } : LexState).literal? pos c rest = none := by
    simp [LexState.literal?, hne '%' (by decide), hne '/' (by decide), hne ':' (by decide)]
  have hfind : Lexeme.punctuators.find? (fun q => q.isPrefixOf (c :: rest)) = none := by
    rw [List.find?_eq_none]
    intro q hq
    rw [isPrefixOf_eq_false (hpuncts q hq).1 (hpuncts q hq).2]
    exact Bool.false_ne_true
  have hplain : ({ s with atLineStart := false } : LexState).plainLexeme c rest =
      ⟨.name .punct [c], 1⟩ := by
    unfold LexState.plainLexeme Lexeme.punct
    rw [hdigit, hident, hfind]
    simp [hne '@' (by decide), hne '$' (by decide), Lexeme.spelled]
  rw [step_eq_lexeme s pos hspecial (isEndMark_of_ne hmark), lexeme_eq_push _ pos hquote, hliteral,
    Option.getD_none, hplain]

theorem step_mark {p : Piece} (hp : p = .opener ∨ p = .closer ∨ p = .comma) (htext : p.text = [c]) :
    s.step pos c rest = (put s pos p, 0) := by
  have hfacts : singles.contains c = true ∧ p.content = .name .punct [c] ∧
      (p == .newline) = false := by
    rcases hp with rfl | rfl | rfl <;> obtain rfl := (List.cons.inj htext).1 <;> decide
  obtain ⟨hsingle, hcontent, hnewline⟩ := hfacts
  rw [step_single s pos hsingle, ← hcontent]
  exact push_piece s pos htext hnewline rest

/-- The end of a line has its token, and the bodies that are awaited follow it. -/
theorem step_lineEnd : s.step pos '\n' rest =
    ({ s with
        tokens := s.tokens.push ⟨.newline, pos, pos + 1, "\n", false⟩
        spaced := false
        atLineStart := true }).fill (pos + 1) rest s.pending := by
  have hblank : ¬(CodeUnit.ofChar '\n' = CodeUnit.ofChar ' ' ∨
      CodeUnit.ofChar '\n' = CodeUnit.ofChar '\t' ∨ CodeUnit.ofChar '\n' = CodeUnit.ofChar '\r') := by
    decide
  have hcont : LexState.isContinuation '\n' rest = false := rfl
  unfold LexState.step
  rw [commentBlock?_of_ne (by decide), isEndMark_of_ne (by decide), hcont, ite_self, Bool.and_false,
    if_neg hblank]
  rfl

theorem step_newline (hpending : s.pending = []) (hspaced : s.spaced = false) :
    s.step pos '\n' rest = (put s pos .newline, 0) := by
  rw [step_lineEnd, hpending]
  unfold put
  rw [hspaced, hpending]
  rfl

theorem step_space (rest : Text) :
    s.step pos ' ' rest = ({ s with spaced := true, atLineStart := false }, 0) := by
  unfold LexState.step
  rw [commentBlock?_of_ne (by decide), isEndMark_of_ne (by decide)]
  simp

end Step

/-! ### Scans -/

theorem scan_skip (s : LexState) (pos : Nat) (taken rest : Text) :
    LexState.scan pos taken.length s (taken ++ rest) =
      LexState.scan (pos + taken.length) 0 s rest := by
  induction taken generalizing pos with
  | nil => rfl
  | cons c taken ih =>
    rw [List.length_cons, List.cons_append, LexState.scan, ih, Nat.add_right_comm, Nat.add_assoc]

theorem scan_step {s s' : LexState} {pos : Nat} {c : CodeUnit} (taken : Text) {rest : Text}
    (h : s.step pos c (taken ++ rest) = (s', taken.length)) :
    LexState.scan pos 0 s (c :: (taken ++ rest)) =
      LexState.scan (pos + (taken.length + 1)) 0 s' rest := by
  rw [LexState.scan, h]
  dsimp only
  rw [scan_skip, Nat.add_assoc, Nat.add_comm 1]

/-- The scan is at the end of a piece. -/
structure Ready (s : LexState) : Prop where
  pending : s.pending = []
  spaced : s.spaced = false
  afterDot : s.afterDot = false

theorem scan_piece {s : LexState} (hpending : s.pending = []) (hdot : s.afterDot = false) {p : Piece}
    (hspelled : p.isSpelled = true) (hspaced : p = .newline → s.spaced = false) {rest : Text}
    (hname : p.isName = true → rest.head?.all breaks.contains = true) (pos : Nat) :
    LexState.scan pos 0 s (p.text ++ rest) =
      LexState.scan (pos + p.text.length) 0 (put s pos p) rest := by
  cases p with
  | word w =>
    cases w with
    | nil => exact absurd hspelled (by decide)
    | cons c w => exact scan_step w (step_word s pos hspelled (hname rfl) hdot)
  | string value =>
    have hstep := step_string s pos value rest
    have hlength : (escaped value).length + 1 = (escaped value ++ [('\x27' : CodeUnit)]).length := by
      simp
    rw [List.append_cons, hlength] at hstep
    exact scan_step _ hstep
  | symbol w =>
    cases w with
    | nil => exact absurd hspelled (by decide)
    | cons c w => exact scan_step (c :: w) (step_symbol s pos hspelled (hname rfl))
  | opener => exact scan_step [] (step_mark s pos (.inl rfl) rfl)
  | closer => exact scan_step [] (step_mark s pos (.inr (.inl rfl)) rfl)
  | comma => exact scan_step [] (step_mark s pos (.inr (.inr rfl)) rfl)
  | newline => exact scan_step [] (step_newline s pos hpending (hspaced rfl))

theorem afterDot_put (s : LexState) (pos : Nat) (p : Piece) : (put s pos p).afterDot = false := by
  unfold LexState.afterDot put
  rw [Array.back?_push, Option.any_some]
  cases p with
  | word w =>
    simp only [Token.isPunct, Token.isOneOf, Piece.content]
    cases keywords.contains w <;> rfl
  | string value => rfl
  | symbol w => rfl
  | opener => rfl
  | closer => rfl
  | comma => rfl
  | newline => rfl

theorem scan_placed {s : LexState} (hs : Ready s) {p : Placed} (hspelled : p.piece.isSpelled = true)
    (hspaced : (p.spaced && p.piece == .newline) = false) {rest : Text}
    (hname : p.piece.isName = true → rest.head?.all breaks.contains = true) (pos : Nat) :
    ∃ s', Ready s' ∧ s'.tokens = s.tokens.push (p.token pos) ∧ s'.problems = s.problems ∧
      LexState.scan pos 0 s (p.text ++ rest) = LexState.scan (pos + p.text.length) 0 s' rest := by
  obtain ⟨spaced, piece⟩ := p
  cases spaced with
  | false =>
    refine ⟨put s pos piece, ⟨hs.pending, rfl, afterDot_put s pos piece⟩, ?_, rfl,
      scan_piece hs.pending hs.afterDot hspelled (fun _ => hs.spaced) hname pos⟩
    unfold put
    rw [hs.spaced]
    rfl
  | true =>
    let s₁ : LexState := { s with spaced := true, atLineStart := false }
    have hnewline : piece = .newline → s₁.spaced = false := by
      rintro rfl
      exact absurd hspaced (by decide)
    refine ⟨put s₁ (pos + 1) piece, ⟨hs.pending, rfl, afterDot_put s₁ (pos + 1) piece⟩, rfl, rfl, ?_⟩
    have hspace := scan_step [] (step_space s pos (piece.text ++ rest))
    have hpiece := scan_piece (s := s₁) hs.pending hs.afterDot hspelled hnewline hname (pos + 1)
    have hlength : pos + (PlacedPiece.mk true piece).text.length = pos + 1 + piece.text.length := by
      simp [PlacedPiece.text, Nat.add_assoc, Nat.add_comm 1]
    rw [hlength]
    exact hspace.trans hpiece

/-- Pieces that may follow a name start with a unit that ends it. -/
theorem head?_printed_breaks {pieces : List Placed} {rest : Text}
    (h : pieces.head?.any (fun q => q.spaced || q.piece.isMark) = true) :
    (printed pieces ++ rest).head?.all breaks.contains = true := by
  cases pieces with
  | nil => exact absurd h (by decide)
  | cons q pieces =>
    obtain ⟨spaced, piece⟩ := q
    rw [printed_cons]
    cases spaced with
    | true => rfl
    | false =>
      have hmark : piece.isMark = true := h
      cases piece with
      | opener => rfl
      | closer => rfl
      | comma => rfl
      | newline => rfl
      | word _ => exact absurd hmark (by simp [Piece.isMark])
      | string _ => exact absurd hmark (by simp [Piece.isMark])
      | symbol _ => exact absurd hmark (by simp [Piece.isMark])

theorem scan_printed {s : LexState} (hs : Ready s) {pieces : List Placed}
    (h : wellSpaced pieces = true) (pos : Nat) (rest : Text) :
    ∃ s', Ready s' ∧ s'.tokens.toList = s.tokens.toList ++ layout pos pieces ∧
      s'.problems = s.problems ∧
      LexState.scan pos 0 s (printed pieces ++ rest) =
        LexState.scan (pos + (printed pieces).length) 0 s' rest := by
  induction pieces generalizing s pos with
  | nil => exact ⟨s, hs, (List.append_nil _).symm, rfl, rfl⟩
  | cons p more ih =>
    simp only [wellSpaced, Bool.and_eq_true, Bool.not_eq_true', Bool.or_eq_true] at h
    obtain ⟨⟨⟨hspelled, hspaced⟩, hnext⟩, hmore⟩ := h
    have hname : p.piece.isName = true →
        (printed more ++ rest).head?.all breaks.contains = true := by
      intro hname
      rw [hname] at hnext
      exact head?_printed_breaks (hnext.resolve_left (by decide))
    obtain ⟨s₁, hs₁, htokens₁, hproblems₁, hscan₁⟩ := scan_placed hs hspelled hspaced hname pos
    obtain ⟨s₂, hs₂, htokens₂, hproblems₂, hscan₂⟩ := ih hs₁ hmore (pos + p.text.length)
    refine ⟨s₂, hs₂, ?_, hproblems₂.trans hproblems₁, ?_⟩
    · rw [htokens₂, htokens₁, Array.toList_push, List.append_assoc]
      rfl
    · rw [printed_cons, List.append_assoc, hscan₁, hscan₂, List.length_append, Nat.add_assoc]

/-- A text of pieces has their tokens, and nothing is wrong with it. -/
theorem lex_printed {pieces : List Placed} (h : wellSpaced pieces = true) :
    lex (printed pieces) 0 = ⟨layout 0 pieces, []⟩ := by
  obtain ⟨s, hs, htokens, hproblems, hscan⟩ :=
    scan_printed (s := .start) ⟨rfl, rfl, rfl⟩ h 0 []
  have hend : LexState.scan 0 0 .start (printed pieces) = s := by
    rw [List.append_nil] at hscan
    rw [hscan, LexState.scan, hs.pending]
    obtain ⟨tokens, problems, pending, spaced, atLineStart⟩ := s
    obtain rfl : pending = [] := hs.pending
    rfl
  unfold lex
  rw [hend]
  dsimp only
  rw [htokens, hproblems]
  rfl

end Canonical

end Cookbook
