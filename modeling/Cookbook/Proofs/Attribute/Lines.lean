import Cookbook.Attribute.Basic
import Cookbook.Proofs.Value.Lexing

/-!
Attribute files as text. A line assigns a value at a level to a path of keys; it is printed with the
level's word alone or as a level of the node.

* `AttributeLine` is what a line says, `AttributeLine.print` how it is printed;
* `AttributeLine.pieces` are its pieces, without the newline at its end;
* `lex_printLines` gives the tokens of a file.
-/

namespace Cookbook

/-- A line of an attribute file: a value that is printed, assigned at a level to a path of at least
one key. `ofNode` when the level is written as one of the node. -/
structure AttributeLine where
  ofNode : Bool
  precedence : Precedence
  keys : KeyPath
  value : Value
  keys_ne_nil : keys ≠ []
  printable : value.isPrintable = true

namespace AttributeLine

def print (line : AttributeLine) : Text :=
  (if line.ofNode then "node." else "") ++ line.precedence.word ++ line.keys.flatMap printKey ++
    " = " ++ line.value.print ++ "\n"

end AttributeLine

def printLines (lines : List AttributeLine) : Text := lines.flatMap AttributeLine.print

open Canonical (isWord breaks)
open Written

/-- The word for a level is a name and no reserved word. -/
theorem Precedence.word_isName (precedence : Precedence) :
    isWord precedence.word = true ∧ keywords.contains precedence.word = false := by
  cases precedence <;> decide

namespace AttributeLine

variable (line : AttributeLine)

/-! ### Pieces -/

def rootPieces : List Placed :=
  (if line.ofNode then [⟨false, .word "node"⟩, mark "."] else []) ++
    [⟨false, .word line.precedence.word⟩]

def targetPieces : List Placed := line.rootPieces ++ line.keys.flatMap keyPieces

def pieces : List Placed :=
  line.targetPieces ++ ⟨true, .mark "="⟩ :: Written.pieces true line.value

theorem print_eq : line.print = printed line.pieces ++ [('\n' : CodeUnit)] := by
  have hroot : printed line.rootPieces =
      (if line.ofNode then "node." else "") ++ line.precedence.word := by
    unfold rootPieces
    cases line.ofNode <;>
      simp [printed, mark, PlacedPiece.text, PlacedPiece.blank, Piece.text, Text.ofString]
  show _ = _ ++ ("\n" : Text)
  unfold pieces targetPieces print
  rw [printed_append, printed_append, printed_cons, hroot, printed_keys, printed_pieces line.printable]
  simp [PlacedPiece.text, PlacedPiece.blank, Piece.text, Text.ofString, Text.ofChar]

end AttributeLine

/-! ### Tokens of a line -/

namespace Written

/-- Before the given text, the pieces have their tokens and nothing is wrong with them. -/
def Scans (run : List Placed) (rest : Text) : Prop :=
  ∀ s : LexState, Canonical.Ready s → ∀ pos, ∃ s', Canonical.Ready s' ∧
    s'.tokens.toList = s.tokens.toList ++ layout pos run ∧ s'.problems = s.problems ∧
    LexState.scan pos 0 s (printed run ++ rest) =
      LexState.scan (pos + (printed run).length) 0 s' rest

theorem Scans.ofAllFit {run : List Placed} {rest : Text} (h : AllFit run rest) : Scans run rest :=
  fun _ hs pos => scan_printed hs h pos

theorem Scans.append {run more : List Placed} {rest : Text} (h : Scans run (printed more ++ rest))
    (hmore : Scans more rest) : Scans (run ++ more) rest := by
  intro s hs pos
  obtain ⟨s₁, hs₁, htokens₁, hproblems₁, hscan₁⟩ := h s hs pos
  obtain ⟨s₂, hs₂, htokens₂, hproblems₂, hscan₂⟩ := hmore s₁ hs₁ (pos + (printed run).length)
  refine ⟨s₂, hs₂, ?_, hproblems₂.trans hproblems₁, ?_⟩
  · rw [htokens₂, htokens₁, layout_append, List.append_assoc]
  · rw [printed_append, List.append_assoc, hscan₁, hscan₂, List.length_append, Nat.add_assoc]

section Step

variable (s : LexState) (pos : Nat) {c : CodeUnit} {w rest : Text}

/-- A word that is read as a name where it stands, whatever follows it. -/
theorem step_name (hw : isWord (c :: w) = true) (hc : c ≠ CodeUnit.ofChar '_')
    (hname : Lexeme.word s.afterDot (c :: (w ++ rest)) =
      ⟨(Piece.word (c :: w)).content pos, w.length + 1⟩) :
    s.step pos c (w ++ rest) = (put s pos (.word (c :: w)), w.length) := by
  have hunit := Canonical.isWordUnit_head hw
  have hne : ∀ d, Canonical.isWordUnit d = false → c ≠ d := fun d hd =>
    Canonical.ne_of_isWordUnit hunit hd
  have hliteral : ({ s with atLineStart := false } : LexState).literal? pos c (w ++ rest) = none := by
    simp [LexState.literal?, hne '%' (by decide), hne '/' (by decide), hne ':' (by decide)]
  have hplain : ({ s with atLineStart := false } : LexState).plainLexeme c (w ++ rest) =
      ⟨(Piece.word (c :: w)).content pos, w.length + 1⟩ := by
    unfold LexState.plainLexeme
    rw [Canonical.not_isDigit_head hw, Canonical.isIdentStart_head hw]
    simp only [hne '@' (by decide), hne '$' (by decide), Bool.false_eq_true, or_self, if_false, if_true]
    exact hname
  rw [Canonical.step_eq_lexeme s pos (Canonical.not_contains_of_isWordUnit hunit (by decide))
      (Canonical.isEndMark_of_ne hc),
    Canonical.lexeme_eq_push _ pos (Canonical.not_contains_of_isWordUnit hunit (by decide)), hliteral,
    Option.getD_none, hplain]
  exact push_piece s pos rfl rest

theorem step_node (hdot : s.afterDot = false) (rest : Text) :
    s.step pos 'n' (("ode" : Text) ++ ('.' : CodeUnit) :: rest) = (put s pos (.word "node"), 3) := by
  refine step_name s pos (w := "ode") (by decide) (by decide) ?_
  rw [hdot]
  rfl

theorem step_dot (precedence : Precedence) (rest : Text) :
    s.step pos '.' (precedence.word ++ rest) = (put s pos (.mark "."), 0) := by
  have hplain : ({ s with atLineStart := false } : LexState).plainLexeme '.' (precedence.word ++ rest) =
      ⟨(Piece.mark ".").content pos, 1⟩ := by
    cases precedence <;> rfl
  rw [Canonical.step_eq_lexeme s pos (by decide) (Canonical.isEndMark_of_ne (by decide)),
    Canonical.lexeme_eq_push _ pos (by decide)]
  show LexState.push _ pos _ (LexState.plainLexeme _ '.' (precedence.word ++ rest)) = _
  rw [hplain]
  exact push_piece s pos (p := .mark ".") rfl _

theorem step_equals (rest : Text) :
    s.step pos '=' ((' ' : CodeUnit) :: rest) = (put s pos (.mark "="), 0) := by
  have hblock : LexState.commentBlock? (CodeUnit.ofChar '=' :: CodeUnit.ofChar ' ' :: rest) = none := rfl
  have hcont : LexState.isContinuation '=' ((' ' : CodeUnit) :: rest) = false := rfl
  have hlexeme : s.step pos '=' ((' ' : CodeUnit) :: rest) =
      { s with atLineStart := false }.lexeme pos '=' ((' ' : CodeUnit) :: rest) := by
    unfold LexState.step
    rw [hblock, Canonical.isEndMark_of_ne (by decide), hcont, ite_self, Bool.and_false]
    rfl
  have hplain : ({ s with atLineStart := false } : LexState).plainLexeme '=' ((' ' : CodeUnit) :: rest) =
      ⟨(Piece.mark "=").content pos, 1⟩ := rfl
  rw [hlexeme, Canonical.lexeme_eq_push _ pos (by decide)]
  exact push_piece s pos (p := .mark "=") rfl _

end Step

/-- A dot makes a name of a reserved word, and leaves every other word as it is. -/
theorem word_afterDot {c : CodeUnit} {w rest : Text} (hw : isWord (c :: w) = true)
    (hrest : rest.head?.all breaks.contains = true) (hkeyword : keywords.contains (c :: w) = false)
    (afterDot : Bool) : Lexeme.word afterDot (c :: w ++ rest) = Lexeme.word false (c :: w ++ rest) := by
  unfold Lexeme.word
  rw [Canonical.wordLength_word hw hrest]
  dsimp only
  rw [show w.length + 1 = (c :: w).length from rfl, List.take_left, hkeyword]
  rfl

/-- A level is a name, after a dot as well: no level is a reserved word. -/
theorem scan_level (s : LexState) (pos : Nat) (precedence : Precedence) (rest : Text) :
    LexState.scan pos 0 s (precedence.word ++ ('[' : CodeUnit) :: rest) =
      LexState.scan (pos + precedence.word.length) 0 (put s pos (.word precedence.word))
        (('[' : CodeUnit) :: rest) := by
  have hhead : precedence.word.head? ≠ some '_' := by
    cases precedence <;> decide
  obtain ⟨hw, hkeyword⟩ := precedence.word_isName
  cases hlevel : precedence.word with
  | nil =>
    rw [hlevel] at hw
    exact absurd hw (by decide)
  | cons c w =>
    rw [hlevel] at hw hkeyword hhead
    have hbreak : (('[' : CodeUnit) :: rest).head?.all breaks.contains = true := rfl
    have hname := (word_afterDot hw hbreak hkeyword s.afterDot).trans (Canonical.lexeme_word hw hbreak)
    exact Canonical.scan_step w (step_name s pos hw (fun hc => hhead (congrArg some hc)) hname)

theorem scans_level (precedence : Precedence) (rest : Text) :
    Scans [⟨false, .word precedence.word⟩] (('[' : CodeUnit) :: rest) :=
  .ofAllFit ⟨⟨precedence.word_isName.1, rfl⟩, trivial⟩

theorem scans_nodeLevel (precedence : Precedence) (rest : Text) :
    Scans [⟨false, .word "node"⟩, mark ".", ⟨false, .word precedence.word⟩]
      (('[' : CodeUnit) :: rest) := by
  intro s hs pos
  let s₁ := put s pos (.word "node")
  let s₂ := put s₁ (pos + 4) (.mark ".")
  let s₃ := put s₂ (pos + 5) (.word precedence.word)
  have hfit : (Piece.word precedence.word).Fits (('[' : CodeUnit) :: rest) :=
    ⟨precedence.word_isName.1, rfl⟩
  refine ⟨s₃, ⟨hs.pending, rfl, afterDot_put _ _ hfit⟩, ?_, rfl, ?_⟩
  · simp only [s₁, s₂, s₃, put, hs.spaced, Array.toList_push, List.append_assoc]
    rfl
  · have hnode := Canonical.scan_step ("ode" : Text) (step_node s pos hs.afterDot
      (precedence.word ++ ('[' : CodeUnit) :: rest))
    have hdot := Canonical.scan_step [] (step_dot s₁ (pos + 4) precedence (('[' : CodeUnit) :: rest))
    have hlevel := scan_level s₂ (pos + 5) precedence rest
    have htext : printed [⟨false, .word "node"⟩, mark ".", ⟨false, .word precedence.word⟩] =
        ("node." : Text) ++ precedence.word := by
      simp [printed, mark, PlacedPiece.text, PlacedPiece.blank, Piece.text, Text.ofString]
    rw [htext, List.append_assoc, List.length_append, ← Nat.add_assoc]
    exact hnode.trans (hdot.trans hlevel)

theorem scans_equals (rest : Text) : Scans [⟨true, .mark "="⟩] ((' ' : CodeUnit) :: rest) := by
  intro s hs pos
  let s₁ : LexState := { s with spaced := true, atLineStart := false }
  refine ⟨put s₁ (pos + 1) (.mark "="), ⟨hs.pending, rfl, ?_⟩, ?_, rfl, ?_⟩
  · unfold LexState.afterDot put
    rw [Array.back?_push]
    rfl
  · simp only [s₁, put, Array.toList_push]
    rfl
  · have hspace := Canonical.scan_step [] (Canonical.step_space s pos
      (('=' : CodeUnit) :: (' ' : CodeUnit) :: rest))
    exact hspace.trans (Canonical.scan_step [] (step_equals s₁ (pos + 1) rest))

end Written

namespace AttributeLine

variable (line : AttributeLine)

theorem scans_rootPieces (rest : Text) : Scans line.rootPieces (('[' : CodeUnit) :: rest) := by
  unfold rootPieces
  cases line.ofNode with
  | false => exact scans_level line.precedence rest
  | true => exact scans_nodeLevel line.precedence rest

theorem scans_pieces (rest : Text) : Scans line.pieces (('\n' : CodeUnit) :: rest) := by
  have hkeys : ∀ more : Text, ∃ text, printed (line.keys.flatMap keyPieces) ++ more =
      ('[' : CodeUnit) :: text := by
    obtain ⟨key, keys, hcons⟩ := List.exists_cons_of_ne_nil line.keys_ne_nil
    rw [hcons]
    exact fun more => ⟨_, rfl⟩
  have hprinted : printed (Written.pieces true line.value) = (' ' : CodeUnit) :: line.value.print :=
    printed_pieces line.printable true
  have hvalue : Scans (Written.pieces true line.value) (('\n' : CodeUnit) :: rest) :=
    .ofAllFit (Separable.pieces line.printable true _ rfl)
  have hequals : Scans [⟨true, .mark "="⟩]
      (printed (Written.pieces true line.value) ++ ('\n' : CodeUnit) :: rest) := by
    rw [hprinted]
    exact scans_equals _
  have hassigned := hequals.append hvalue
  refine Scans.append (Scans.append ?_ (.ofAllFit (Separable.keys line.keys _ rfl))) hassigned
  obtain ⟨text, htext⟩ := hkeys (printed (⟨true, .mark "="⟩ :: Written.pieces true line.value) ++
    ('\n' : CodeUnit) :: rest)
  rw [htext]
  exact line.scans_rootPieces text

end AttributeLine

/-! ### Tokens of a file -/

def newlineAt (pos : Nat) : Token := ⟨.newline, pos, pos + 1, "\n", false⟩

/-- The tokens of some lines that are printed at an offset. -/
def lineTokens : (pos : Nat) → List AttributeLine → List Token
  | _, [] => []
  | pos, line :: rest =>
    layout pos line.pieces ++ newlineAt (pos + (printed line.pieces).length) ::
      lineTokens (pos + line.print.length) rest

theorem scan_printLines (lines : List AttributeLine) {s : LexState} (hs : Canonical.Ready s) (pos : Nat) :
    let s' := LexState.scan pos 0 s (printLines lines)
    s'.tokens.toList = s.tokens.toList ++ lineTokens pos lines ∧ s'.problems = s.problems := by
  induction lines generalizing s pos with
  | nil =>
    have hend : LexState.scan pos 0 s [] = { s with pending := [] } := by
      rw [LexState.scan, hs.pending]
      rfl
    show (LexState.scan pos 0 s []).tokens.toList = _ ∧ (LexState.scan pos 0 s []).problems = _
    rw [hend]
    exact ⟨(List.append_nil _).symm, rfl⟩
  | cons line lines ih =>
    obtain ⟨s₁, hs₁, htokens₁, hproblems₁, hscan₁⟩ := line.scans_pieces (printLines lines) s hs pos
    let stop := pos + (printed line.pieces).length
    let s₂ := Canonical.put s₁ stop .newline
    have hs₂ : Canonical.Ready s₂ := ⟨hs₁.pending, rfl, Canonical.afterDot_put _ _ _⟩
    have hstep : s₁.step stop '\n' (printLines lines) = (s₂, 0) :=
      Canonical.step_newline s₁ stop hs₁.pending hs₁.spaced
    have hnewline := Canonical.scan_step [] hstep
    have hlength : pos + line.print.length = stop + 1 := by
      rw [line.print_eq, List.length_append]
      rfl
    have hscan : LexState.scan pos 0 s (printLines (line :: lines)) =
        LexState.scan (pos + line.print.length) 0 s₂ (printLines lines) := by
      rw [hlength, printLines, List.flatMap_cons, line.print_eq, List.append_assoc]
      exact hscan₁.trans hnewline
    obtain ⟨htokens₂, hproblems₂⟩ := ih hs₂ (pos + line.print.length)
    rw [hscan]
    refine ⟨?_, hproblems₂.trans hproblems₁⟩
    rw [htokens₂, lineTokens, ← List.append_assoc, ← htokens₁]
    simp only [s₂, Canonical.put, hs₁.spaced, Array.toList_push, List.append_assoc]
    rfl

/-- The tokens of a file, and nothing is wrong with it. -/
theorem lex_printLines (lines : List AttributeLine) :
    lex (printLines lines) 0 = ⟨lineTokens 0 lines, []⟩ := by
  obtain ⟨htokens, hproblems⟩ := scan_printLines lines (s := .start) ⟨rfl, rfl, rfl⟩ 0
  unfold lex
  dsimp only
  rw [htokens, hproblems]
  rfl

end Cookbook
