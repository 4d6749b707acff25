import Cookbook.Proofs.Attribute.Lines
import Cookbook.Proofs.Condition.Truth
import Cookbook.Proofs.Value.Heads

/-!
Conditions as text. Constants, truth of paths, comparisons and the three tests of a file are printed as
they are written; a part of a larger condition is put in parentheses where it would be read otherwise.

* `Condition.isPrintable` says which conditions are printed, `Condition.print` how;
* `Condition.printable_ind` is the induction on such conditions;
* `Lexes` says what the tokens of a text are like, `lexes_operator`, `lexes_bang` and `lexes_fileMethod`
  are about the marks and names that no value has.
-/

namespace Cookbook

/-! ### What is printed -/

/-- The method of `File` that asks for a test. -/
def TestKind.fileMethod? : TestKind → Option Text
  | .pathExists => some "exist?"
  | .fileExists => some "file?"
  | .directoryExists => some "directory?"
  | _ => none

/-- Whether the value is a path of at least one key. -/
def Value.isPath : Value → Bool
  | .path _ keys => !keys.isEmpty
  | _ => false

mutual

def Condition.isPrintable : Condition → Bool
  | .const _ => true
  | .test kind subject => kind.fileMethod?.isSome && (subject.isText || subject.isPath)
  | .compare left _ right => left.isPrintable && right.isPrintable
  | .truthy v => v.isPath
  | .not c => c.isPrintable
  | .all cs => 2 ≤ cs.length && conditionsPrintable cs
  | .any cs => 2 ≤ cs.length && conditionsPrintable cs
  | .verbatim _ => false

def conditionsPrintable : List Condition → Bool
  | [] => true
  | c :: rest => c.isPrintable && conditionsPrintable rest

end

theorem conditionsPrintable_iff (cs : List Condition) :
    conditionsPrintable cs = true ↔ ∀ c ∈ cs, c.isPrintable = true := by
  induction cs with
  | nil => simp [conditionsPrintable]
  | cons c rest ih => simp [conditionsPrintable, ih]

theorem Value.isPrintable_of_isPath {v : Value} (h : v.isPath = true) : v.isPrintable = true := by
  cases v with
  | path scope keys => exact h
  | _ => exact absurd h Bool.false_ne_true

theorem Value.isPrintable_of_isText {v : Value} (h : v.isText = true) : v.isPrintable = true := by
  cases v with
  | literal s =>
    cases s with
    | text t => rfl
    | _ => exact absurd h Bool.false_ne_true
  | _ => exact absurd h Bool.false_ne_true

theorem Condition.printable_ind {motive : Condition → Prop} (const : ∀ b, motive (.const b))
    (test : ∀ kind method subject, TestKind.fileMethod? kind = some method →
      subject.isPrintable = true → motive (.test kind subject))
    (compare : ∀ left op right, left.isPrintable = true → right.isPrintable = true →
      motive (.compare left op right))
    (truthy : ∀ scope keys, keys ≠ [] → motive (.truthy (.path scope keys)))
    (not : ∀ c, c.isPrintable = true → motive c → motive (.not c))
    (all : ∀ c d cs, (∀ e ∈ c :: d :: cs, motive e) → motive (.all (c :: d :: cs)))
    (any : ∀ c d cs, (∀ e ∈ c :: d :: cs, motive e) → motive (.any (c :: d :: cs))) {c : Condition}
    (h : c.isPrintable = true) : motive c := by
  have hmembers : ∀ cs : List Condition, (decide (2 ≤ cs.length) && conditionsPrintable cs) = true →
      ∃ c d rest, cs = c :: d :: rest ∧ ∀ e ∈ cs, e.isPrintable = true := by
    intro cs hcs
    obtain ⟨hlength, hprintable⟩ := Bool.and_eq_true_iff.1 hcs
    obtain - | ⟨c, - | ⟨d, rest⟩⟩ := cs
    · simp at hlength
    · simp at hlength
    · exact ⟨c, d, rest, rfl, (conditionsPrintable_iff _).1 hprintable⟩
  induction c using Condition.members_ind with
  | const b => exact const b
  | test kind subject =>
    obtain ⟨hkind, hsubject⟩ := Bool.and_eq_true_iff.1 h
    obtain ⟨method, hmethod⟩ := Option.isSome_iff_exists.1 hkind
    refine test kind method subject hmethod ?_
    rcases Bool.or_eq_true_iff.1 hsubject with htext | hpath
    · exact Value.isPrintable_of_isText htext
    · exact Value.isPrintable_of_isPath hpath
  | compare left op right =>
    obtain ⟨hleft, hright⟩ := Bool.and_eq_true_iff.1 h
    exact compare left op right hleft hright
  | truthy v =>
    cases v with
    | path scope keys => exact truthy scope keys (by simpa [isPrintable, Value.isPath] using h)
    | _ => exact absurd h Bool.false_ne_true
  | not c ih => exact not c h (ih h)
  | all cs ih =>
    obtain ⟨c, d, rest, rfl, hcs⟩ := hmembers cs h
    exact all c d rest fun e he => ih e he (hcs e he)
  | any cs ih =>
    obtain ⟨c, d, rest, rfl, hcs⟩ := hmembers cs h
    exact any c d rest fun e he => ih e he (hcs e he)
  | verbatim raw => exact absurd h Bool.false_ne_true

/-! ### How it is printed -/

/-- Whether a member of a conjunction or disjunction stands in parentheses. -/
def Condition.isJoined : Condition → Bool
  | .all _ | .any _ => true
  | _ => false

/-- Whether what is negated stands in parentheses. -/
def Condition.isLoose : Condition → Bool
  | .compare _ _ _ => true
  | c => c.isJoined

def parenthesized (b : Bool) (text : Text) : Text := if b then "(" ++ text ++ ")" else text

mutual

def Condition.print : Condition → Text
  | .const b => if b then "true" else "false"
  | .test kind subject => "File." ++ kind.fileMethod?.getD [] ++ "(" ++ subject.print ++ ")"
  | .compare left op right => left.print ++ " " ++ op.sign ++ " " ++ right.print
  | .truthy v => v.print
  | .not c => "!" ++ parenthesized c.isLoose c.print
  | .all cs => Text.join " && " (printMembers cs)
  | .any cs => Text.join " || " (printMembers cs)
  | .verbatim raw => raw

def printMembers : List Condition → List Text
  | [] => []
  | c :: rest => parenthesized c.isJoined c.print :: printMembers rest

end

def Condition.printMember (c : Condition) : Text := parenthesized c.isJoined c.print

theorem printMembers_eq (cs : List Condition) : printMembers cs = cs.map Condition.printMember := by
  induction cs with
  | nil => rfl
  | cons c rest ih => rw [printMembers, ih, List.map_cons, Condition.printMember]

/-! ### Pieces of a value -/

namespace Written

def valueMarks : List Text := ["[", "]", "\x7b", "\x7d", ",", "=>", "-"]

def Piece.inValue : Piece → Bool
  | .word w => !keywords.contains w || valueWords.contains w
  | .mark t => valueMarks.contains t
  | _ => true

theorem Piece.isPlain_of_inValue {p : Piece} (h : p.inValue = true) : p.isPlain = true := by
  cases p with
  | mark t =>
    have hmark : t ≠ (";" : Text) := by
      rintro rfl
      exact absurd h (by decide)
    simpa [isPlain] using hmark
  | _ => exact h

theorem mem_commaSeparated {p : Placed} {runs : List (List Placed)} (h : p ∈ commaSeparated runs) :
    p = mark "," ∨ ∃ run ∈ runs, p ∈ run := by
  induction runs with
  | nil => exact absurd h List.not_mem_nil
  | cons run runs ih =>
    cases runs with
    | nil => exact .inr ⟨run, List.mem_cons_self, by simpa [commaSeparated] using h⟩
    | cons next runs =>
      unfold commaSeparated at h
      rw [List.intercalate_cons_cons, List.append_assoc, List.mem_append, List.singleton_append,
        List.mem_cons] at h
      rcases h with h | rfl | h
      · exact .inr ⟨run, List.mem_cons_self, h⟩
      · exact .inl rfl
      · rcases ih h with rfl | ⟨other, hother, hp⟩
        · exact .inl rfl
        · exact .inr ⟨other, List.mem_cons_of_mem _ hother, hp⟩

theorem inValue_enclosed {spaced : Bool} {opener closer : Text} (hopener : valueMarks.contains opener = true)
    (hcloser : valueMarks.contains closer = true) {runs : List (List Placed)}
    (h : ∀ run ∈ runs, ∀ p ∈ run, p.piece.inValue = true) :
    ∀ p ∈ enclosed spaced opener closer runs, p.piece.inValue = true := by
  intro p hp
  rw [enclosed, List.mem_cons, List.mem_append, List.mem_singleton] at hp
  rcases hp with rfl | hp | rfl
  · exact hopener
  · rcases mem_commaSeparated hp with rfl | ⟨run, hrun, hp⟩
    · decide
    · exact h run hrun p hp
  · exact hcloser

/-- The pieces of a value are those that a value may have. -/
theorem inValue_pieces {v : Value} (h : v.isPrintable = true) (spaced : Bool) :
    ∀ p ∈ pieces spaced v, p.piece.inValue = true := by
  have hsingle : ∀ {p : Placed}, p.piece.inValue = true → ∀ q ∈ [p], q.piece.inValue = true := by
    intro p hp q hq
    obtain rfl := List.mem_singleton.1 hq
    exact hp
  revert spaced
  -- for any blank in front, since the items of a list have one each
  apply Value.printable_ind (h := h)
  case text => exact fun t spaced => hsingle rfl
  case number =>
    intro n _ spaced p hp
    rw [pieces, intPieces] at hp
    split at hp
    · rcases List.mem_cons.1 hp with rfl | hp
      · rfl
      · exact hsingle rfl p hp
    · exact hsingle rfl p hp
  case bool =>
    intro b spaced
    cases b <;> exact hsingle rfl
  case nil => exact fun spaced => hsingle rfl
  case symbol => exact fun name spaced => hsingle rfl
  case path =>
    intro scope keys _ spaced p hp
    rw [pieces, pathPieces, List.mem_cons, List.mem_flatMap] at hp
    rcases hp with rfl | ⟨key, -, hp⟩
    · cases scope <;> rfl
    · simp only [keyPieces, List.mem_cons, List.not_mem_nil, or_false] at hp
      rcases hp with rfl | rfl | rfl <;> rfl
  case interpolation => exact fun segments _ spaced => hsingle rfl
  case list =>
    intro items _ ih spaced
    rw [pieces_list]
    refine inValue_enclosed (by decide) (by decide) fun run hrun => ?_
    obtain ⟨spaced', v, hv, rfl⟩ := mem_runsOf hrun
    exact ih v hv spaced'
  case map =>
    intro entries _ ih spaced
    rw [pieces_map]
    refine inValue_enclosed (by decide) (by decide) fun run hrun p hp => ?_
    obtain ⟨spaced', e, he, rfl⟩ := mem_runsOf hrun
    rw [entryPieces, List.mem_cons, List.mem_cons] at hp
    rcases hp with rfl | rfl | hp
    · rfl
    · rfl
    · exact ih e he true p hp

end Written

/-! ### Tokens of a text -/

open Canonical (breaks Ready)
open Written

/-- Before the rest, the text has tokens of which `P` holds, with or without a blank before it; none of
them separates statements. -/
def Lexes (text rest : Text) (P : List Token → Prop) : Prop :=
  ∀ spaced s, Ready s → ∀ pos, ∃ s' run, Ready s' ∧ P run ∧ (∀ t ∈ run, t.isSeparator = false) ∧
    s'.tokens.toList = s.tokens.toList ++ run ∧
    LexState.scan pos 0 s (PlacedPiece.blank spaced ++ text ++ rest) =
      LexState.scan (pos + (PlacedPiece.blank spaced ++ text).length) 0 s' rest

namespace Lexes

variable {text more rest : Text} {P Q : List Token → Prop}

theorem imp (h : Lexes text rest P) (hPQ : ∀ run, P run → Q run) : Lexes text rest Q := by
  intro spaced s hs pos
  obtain ⟨s', run, hs', hrun, hrest⟩ := h spaced s hs pos
  exact ⟨s', run, hs', hPQ run hrun, hrest⟩

theorem append (spaced : Bool) (h : Lexes text (PlacedPiece.blank spaced ++ more ++ rest) P)
    (hmore : Lexes more rest Q) :
    Lexes (text ++ (PlacedPiece.blank spaced ++ more)) rest fun run => ∃ a b, run = a ++ b ∧ P a ∧ Q b := by
  intro lead s hs pos
  obtain ⟨s₁, a, hs₁, ha, hsep₁, htokens₁, hscan₁⟩ := h lead s hs pos
  obtain ⟨s₂, b, hs₂, hb, hsep₂, htokens₂, hscan₂⟩ := hmore spaced s₁ hs₁
    (pos + (PlacedPiece.blank lead ++ text).length)
  refine ⟨s₂, a ++ b, hs₂, ⟨a, b, rfl, ha, hb⟩, ?_, ?_, ?_⟩
  · intro t ht
    rcases List.mem_append.1 ht with ht | ht
    · exact hsep₁ t ht
    · exact hsep₂ t ht
  · rw [htokens₂, htokens₁, List.append_assoc]
  · have hlength : pos + (PlacedPiece.blank lead ++ (text ++ (PlacedPiece.blank spaced ++ more))).length =
        pos + (PlacedPiece.blank lead ++ text).length + (PlacedPiece.blank spaced ++ more).length := by
      simp only [List.length_append]
      omega
    rw [hlength, ← hscan₂, ← hscan₁]
    simp only [List.append_assoc]

theorem value {v : Value} (h : v.isPrintable = true) (hrest : rest.head?.all breaks.contains = true) :
    Lexes v.print rest fun run => ∃ spaced pos, run = layout pos (Written.pieces spaced v) := by
  intro spaced s hs pos
  obtain ⟨s', hs', htokens, -, hscan⟩ := scan_printed hs (Separable.pieces h spaced rest hrest) pos
  rw [printed_pieces h spaced] at hscan
  refine ⟨s', _, hs', ⟨spaced, pos, rfl⟩, fun t ht => ?_, htokens, hscan⟩
  obtain ⟨p, hp, pos', rfl⟩ := mem_layout ht
  exact (isPlain_token (Piece.isPlain_of_inValue (inValue_pieces h spaced p hp)) pos').notSeparator

end Lexes

/-! ### Marks -/

/-- The blank before a text changes no token. -/
theorem scan_blank (spaced : Bool) {s : LexState} (hs : Ready s) (pos : Nat) (text : Text) :
    ∃ s₁ : LexState, s₁.pending = [] ∧ s₁.afterDot = false ∧ s₁.tokens = s.tokens ∧
      LexState.scan pos 0 s (PlacedPiece.blank spaced ++ text) =
        LexState.scan (pos + (PlacedPiece.blank spaced).length) 0 s₁ text := by
  cases spaced with
  | false => exact ⟨s, hs.pending, hs.afterDot, rfl, rfl⟩
  | true =>
    exact ⟨{ s with spaced := true, atLineStart := false }, hs.pending, hs.afterDot, rfl,
      Canonical.scan_step [] (Canonical.step_space s pos text)⟩

theorem Lexes.mark {c : CodeUnit} {m rest : Text}
    (hstep : ∀ s pos, LexState.step s pos c (m ++ rest) = (put s pos (.mark (c :: m)), m.length))
    (hdot : ([".", "&.", ";"] : List Text).contains (c :: m) = false) :
    Lexes (c :: m) rest fun run => ∃ t, run = [t] ∧ t.content = .name .punct (c :: m) := by
  intro spaced s hs pos
  obtain ⟨s₁, hpending, -, htokens, hscan⟩ := scan_blank spaced hs pos (c :: (m ++ rest))
  let start := pos + (PlacedPiece.blank spaced).length
  let t : Token := ⟨.name .punct (c :: m), start, start + (c :: m).length, c :: m, s₁.spaced⟩
  have hnot : ∀ values : List Text, values ⊆ [".", "&.", ";"] → t.isPunct values = false := by
    intro values hsub
    have hmem : c :: m ∉ values := fun hmem => by
      rw [List.contains_iff_mem.2 (hsub hmem)] at hdot
      exact absurd hdot (by decide)
    simpa [t, Token.isPunct, Token.isOneOf] using hmem
  refine ⟨put s₁ start (.mark (c :: m)), [t], ⟨hpending, rfl, ?_⟩, ⟨t, rfl, rfl⟩, ?_, ?_, ?_⟩
  · unfold LexState.afterDot put
    rw [Array.back?_push, Option.any_some]
    exact hnot _ (by simp)
  · intro u hu
    obtain rfl := List.mem_singleton.1 hu
    show (t.isNewline || t.isPunct [";"]) = false
    rw [hnot _ (by simp)]
    rfl
  · simp only [put, Array.toList_push, htokens]
    rfl
  · rw [List.length_append, ← Nat.add_assoc, List.append_assoc]
    exact hscan.trans (Canonical.scan_step m (hstep s₁ start))

section Step

variable (s : LexState) (pos : Nat) {c : CodeUnit} {m rest : Text}

/-- The units that start a blank, a comment, a literal or a name. -/
def lexemeStarts : List CodeUnit :=
  [' ', '\t', '\r', '\\', '#', '\n', '\x27', '\x22', '\x60', '_', '%', '/', ':', '@', '$']

theorem step_punct (hc : lexemeStarts.contains c = false)
    (hword : c.isDigit = false ∧ c.isIdentStart = false)
    (hblock : LexState.commentBlock? (c :: (m ++ rest)) = none)
    (hheredoc : Lexeme.heredoc? (c :: (m ++ rest)) = none)
    (hpunct : Lexeme.punct (c :: (m ++ rest)) = ⟨.name .punct (c :: m), m.length + 1⟩) :
    s.step pos c (m ++ rest) = (put s pos (.mark (c :: m)), m.length) := by
  have hne : ∀ d ∈ lexemeStarts, c ≠ d := by
    rintro d hd rfl
    rw [List.contains_iff_mem.2 hd] at hc
    exact absurd hc (by decide)
  have hcont : LexState.isContinuation c (m ++ rest) = false := by
    simp [LexState.isContinuation, hne '\\' (by decide)]
  have hstep : s.step pos c (m ++ rest) = { s with atLineStart := false }.lexeme pos c (m ++ rest) := by
    unfold LexState.step
    rw [hblock, Canonical.isEndMark_of_ne (hne '_' (by decide)), hcont]
    simp [hne ' ' (by decide), hne '\t' (by decide), hne '\r' (by decide), hne '#' (by decide),
      hne '\n' (by decide)]
  have hopener : ({ s with atLineStart := false } : LexState).opener? c (m ++ rest) = none := by
    simp [LexState.opener?, hheredoc]
  have hliteral : ({ s with atLineStart := false } : LexState).literal? pos c (m ++ rest) = none := by
    simp [LexState.literal?, hne '%' (by decide), hne '/' (by decide), hne ':' (by decide)]
  have hplain : ({ s with atLineStart := false } : LexState).plainLexeme c (m ++ rest) =
      ⟨(Piece.mark (c :: m)).content pos, m.length + 1⟩ := by
    unfold LexState.plainLexeme
    rw [hword.1, hword.2, hpunct]
    simp [hne '@' (by decide), hne '$' (by decide), Piece.content]
  rw [hstep, LexState.lexeme_eq, hopener, hliteral, Option.getD_none, hplain]
  simp only [hne '\x27' (by decide), hne '\x22' (by decide), hne '\x60' (by decide), or_self, if_false]
  exact push_piece s pos rfl rest

def operators : List Text := ["==", "!=", "<", ">", "<=", ">=", "&&", "||"]

theorem step_operator (h : c :: m ∈ operators) :
    s.step pos c (m ++ (' ' : CodeUnit) :: rest) = (put s pos (.mark (c :: m)), m.length) := by
  simp only [operators, List.mem_cons, List.not_mem_nil, or_false] at h
  rcases h with h | h | h | h | h | h | h | h <;> obtain ⟨rfl, rfl⟩ := List.cons.inj h <;>
    exact step_punct s pos (by decide) (by decide) rfl rfl rfl

/-- The mark of a negation, where it does not start a longer one. -/
theorem step_bang (h : rest.head? ≠ some ('=' : CodeUnit) ∧ rest.head? ≠ some ('~' : CodeUnit)) :
    s.step pos '!' rest = (put s pos (.mark "!"), 0) := by
  have hlonger : ∀ q ∈ Lexeme.punctuators,
      q.head? ≠ some (CodeUnit.ofChar '!') ∧ q ≠ [] ∨ q = "!=" ∨ q = "!~" := by
    decide
  have hfind : Lexeme.punctuators.find? (fun q => q.isPrefixOf (CodeUnit.ofChar '!' :: rest)) = none := by
    rw [List.find?_eq_none]
    intro q hq
    rw [Bool.not_eq_true]
    rcases hlonger q hq with ⟨hhead, hne⟩ | rfl | rfl
    · exact Canonical.isPrefixOf_eq_false hhead hne
    · have hrest : ("=" : Text).isPrefixOf rest = false :=
        Canonical.isPrefixOf_eq_false (fun heq => h.1 heq.symm) (by decide)
      exact hrest
    · have hrest : ("~" : Text).isPrefixOf rest = false :=
        Canonical.isPrefixOf_eq_false (fun heq => h.2 heq.symm) (by decide)
      exact hrest
  have hpunct : Lexeme.punct (CodeUnit.ofChar '!' :: rest) = ⟨.name .punct "!", 1⟩ := by
    unfold Lexeme.punct
    rw [hfind]
    rfl
  have hheredoc : Lexeme.heredoc? (CodeUnit.ofChar '!' :: rest) = none := by
    cases rest <;> rfl
  exact step_punct (m := []) s pos (by decide) (by decide) (Canonical.commentBlock?_of_ne (by decide))
    hheredoc hpunct

def putName (s : LexState) (pos : Nat) (kind : NameKind) (name : Text) : LexState :=
  { s with
    tokens := s.tokens.push ⟨.name kind name, pos, pos + name.length, name, s.spaced⟩
    spaced := false
    atLineStart := false }

/-- A word that is read as a name of the given kind. -/
theorem step_ident {kind : NameKind} (hc : (lexemeStarts ++ Text.ofString "=<").contains c = false)
    (hident : c.isDigit = false ∧ c.isIdentStart = true)
    (hword : Lexeme.word s.afterDot (c :: (m ++ rest)) = ⟨.name kind (c :: m), m.length + 1⟩) :
    s.step pos c (m ++ rest) = (putName s pos kind (c :: m), m.length) := by
  have hne : ∀ d ∈ lexemeStarts ++ Text.ofString "=<", c ≠ d := by
    rintro d hd rfl
    rw [List.contains_iff_mem.2 hd] at hc
    exact absurd hc (by decide)
  have hspecial : Canonical.specials.contains c = false := by
    simp [Canonical.specials, hne ' ' (by decide), hne '\t' (by decide), hne '\r' (by decide),
      hne '\\' (by decide), hne '#' (by decide), hne '\n' (by decide), hne '=' (by decide)]
  have hquote : (['\x27', '\x22', '\x60', '<'] : List CodeUnit).contains c = false := by
    simp [hne '\x27' (by decide), hne '\x22' (by decide), hne '\x60' (by decide), hne '<' (by decide)]
  have hliteral : ({ s with atLineStart := false } : LexState).literal? pos c (m ++ rest) = none := by
    simp [LexState.literal?, hne '%' (by decide), hne '/' (by decide), hne ':' (by decide)]
  have hplain : ({ s with atLineStart := false } : LexState).plainLexeme c (m ++ rest) =
      ⟨.name kind (c :: m), m.length + 1⟩ := by
    unfold LexState.plainLexeme
    rw [hident.1, hident.2]
    simp only [hne '@' (by decide), hne '$' (by decide), Bool.false_eq_true, or_self, if_false, if_true]
    exact hword
  have htake : (c :: (m ++ rest)).take (m.length + 1) = c :: m := by simp
  rw [Canonical.step_eq_lexeme s pos hspecial (Canonical.isEndMark_of_ne (hne '_' (by decide))),
    Canonical.lexeme_eq_push _ pos hquote, hliteral, Option.getD_none, hplain]
  unfold LexState.push putName
  simp only [htake, List.length_cons, Nat.add_sub_cancel]

end Step

theorem lexes_operator {op : Text} (h : op ∈ operators) (rest : Text) :
    Lexes op ((' ' : CodeUnit) :: rest) fun run => ∃ t, run = [t] ∧ t.content = .name .punct op := by
  have hfacts : ∀ op ∈ operators, op ≠ [] ∧ ([".", "&.", ";"] : List Text).contains op = false := by
    decide
  obtain ⟨hne, hdot⟩ := hfacts op h
  obtain ⟨c, m, rfl⟩ := List.exists_cons_of_ne_nil hne
  exact .mark (fun s pos => step_operator s pos h) hdot

theorem lexes_bang {rest : Text}
    (h : rest.head? ≠ some ('=' : CodeUnit) ∧ rest.head? ≠ some ('~' : CodeUnit)) :
    Lexes "!" rest fun run => ∃ t, run = [t] ∧ t.content = .name .punct "!" :=
  .mark (m := []) (fun s pos => step_bang s pos h) (by decide)

theorem lexes_bracket {c : CodeUnit} (hc : Canonical.singles.contains c = true) (rest : Text) :
    Lexes [c] rest fun run => ∃ t, run = [t] ∧ t.content = .name .punct [c] := by
  have hdots : Canonical.singles.all (fun c => !([".", "&.", ";"] : List Text).contains [c]) = true := by
    decide
  have hdot := List.all_eq_true.1 hdots c (List.contains_iff_mem.1 hc)
  refine .mark (m := []) (fun s pos => ?_) (by simpa using hdot)
  rw [List.nil_append, Canonical.step_single s pos hc]
  exact push_piece s pos (p := .mark [c]) rfl rest

theorem word_query {c : CodeUnit} {w : Text} (hw : (c :: w).all CodeUnit.isIdentUnit = true)
    (hkeyword : keywords.contains (c :: (w ++ "?")) = false) (hlower : c.isUpper = false)
    (afterDot : Bool) (rest : Text) :
    Lexeme.word afterDot (c :: (w ++ "?" ++ ('(' : CodeUnit) :: rest)) =
      ⟨.name .ident (c :: (w ++ "?")), (w ++ "?").length + 1⟩ := by
  let name : Text := c :: (w ++ "?")
  have hmark : name ++ ('(' : CodeUnit) :: rest =
      (c :: w) ++ ('?' : CodeUnit) :: ('(' : CodeUnit) :: rest := by
    simp only [name, List.cons_append, List.append_assoc]
    rfl
  have hrun : Lexeme.run CodeUnit.isIdentUnit (name ++ ('(' : CodeUnit) :: rest) = (c :: w).length := by
    rw [hmark]
    exact Canonical.run_append_of_all (List.all_eq_true.1 hw) rfl
  have hdrop : (name ++ ('(' : CodeUnit) :: rest).drop (c :: w).length =
      ('?' : CodeUnit) :: ('(' : CodeUnit) :: rest := by
    rw [hmark, List.drop_left]
  have hsize : (c :: w).length + 1 = name.length := by
    simp only [name, List.length_cons, List.length_append]
    rfl
  have hlength : Lexeme.wordLength (name ++ ('(' : CodeUnit) :: rest) = name.length := by
    unfold Lexeme.wordLength
    simp only [hrun, hdrop]
    exact hsize
  have hlabel : Lexeme.startsLabelColon (('(' : CodeUnit) :: rest) = false := rfl
  have hhead : name.head?.any CodeUnit.isUpper = false := hlower
  have hplain : keywords.contains name = false := hkeyword
  show Lexeme.word afterDot (name ++ ('(' : CodeUnit) :: rest) = ⟨.name .ident name, name.length⟩
  unfold Lexeme.word Lexeme.spelled
  simp only [hlength, List.take_left, List.drop_left, hlabel, hhead, hplain, Bool.false_and,
    Bool.false_eq_true, if_false]

/-- The method of a test of a file is one name, up to the parenthesis right after it. -/
theorem fileMethod_word {kind : TestKind} {method : Text} (h : kind.fileMethod? = some method)
    (rest : Text) :
    ∃ c m, method = c :: m ∧ (lexemeStarts ++ Text.ofString "=<").contains c = false ∧
      (c.isDigit = false ∧ c.isIdentStart = true) ∧
      (∀ b, Lexeme.word b (c :: (m ++ ('(' : CodeUnit) :: rest)) =
        ⟨.name .ident (c :: m), m.length + 1⟩) ∧
      Lexeme.punct (('.' : CodeUnit) :: c :: (m ++ ('(' : CodeUnit) :: rest)) = ⟨.name .punct ".", 1⟩ := by
  cases kind with
  | pathExists =>
    obtain rfl := Option.some.inj h
    exact ⟨'e', "xist" ++ "?", rfl, by decide, by decide,
      fun b => word_query (by decide) (by decide) (by decide) b rest, rfl⟩
  | fileExists =>
    obtain rfl := Option.some.inj h
    exact ⟨'f', "ile" ++ "?", rfl, by decide, by decide,
      fun b => word_query (by decide) (by decide) (by decide) b rest, rfl⟩
  | directoryExists =>
    obtain rfl := Option.some.inj h
    exact ⟨'d', "irectory" ++ "?", rfl, by decide, by decide,
      fun b => word_query (by decide) (by decide) (by decide) b rest, rfl⟩
  | _ => exact absurd h (by simp [TestKind.fileMethod?])

/-- The start of a test of a file, up to the parenthesis right after the method. -/
theorem lexes_fileMethod {kind : TestKind} {method : Text} (h : kind.fileMethod? = some method)
    (rest : Text) :
    Lexes ("File." ++ method ++ "(") rest fun run => ∃ file dot name paren,
      run = [file, dot, name, paren] ∧ file.content = .name .const "File" ∧
        dot.content = .name .punct "." ∧ name.content = .name .ident method ∧
        paren.content = .name .punct "(" ∧ paren.spaceBefore = false := by
  obtain ⟨c, m, rfl, hc, hident, hword, hpunct⟩ := fileMethod_word h rest
  intro spaced s hs pos
  obtain ⟨s₁, hpending, hdot, htokens, hscan⟩ := scan_blank spaced hs pos
    ("File." ++ c :: (m ++ ('(' : CodeUnit) :: rest))
  -- the four tokens are seen one after another
  let start := pos + (PlacedPiece.blank spaced).length
  let s₂ := putName s₁ start .const "File"
  let s₃ := put s₂ (start + 4) (.mark ".")
  let s₄ := putName s₃ (start + 5) .ident (c :: m)
  let s₅ := put s₄ (start + 5 + (m.length + 1)) (.mark "(")
  have hstep₂ : s₁.step start 'F' (("ile" : Text) ++ (("." : Text) ++ c :: (m ++ ('(' : CodeUnit) :: rest))) =
      (s₂, 3) := by
    refine step_ident s₁ start (by decide) (by decide) ?_
    rw [hdot]
    rfl
  have hstep₃ : s₂.step (start + 4) '.' (c :: (m ++ ('(' : CodeUnit) :: rest)) = (s₃, 0) :=
    step_punct (m := []) s₂ (start + 4) (by decide) (by decide)
      (Canonical.commentBlock?_of_ne (by decide)) rfl hpunct
  have hstep₄ : s₃.step (start + 5) c (m ++ ('(' : CodeUnit) :: rest) = (s₄, m.length) :=
    step_ident s₃ (start + 5) hc hident (hword _)
  have hstep₅ : s₄.step (start + 5 + (m.length + 1)) '(' rest = (s₅, 0) := by
    rw [Canonical.step_single s₄ _ (by decide)]
    exact push_piece s₄ _ (p := .mark "(") rfl rest
  refine ⟨s₅, [⟨.name .const "File", start, start + 4, "File", s₁.spaced⟩,
    ⟨.name .punct ".", start + 4, start + 5, ".", false⟩,
    ⟨.name .ident (c :: m), start + 5, start + 5 + (m.length + 1), c :: m, false⟩,
    ⟨.name .punct "(", start + 5 + (m.length + 1), start + 5 + (m.length + 1) + 1, "(", false⟩],
    ⟨hpending, rfl, ?_⟩, ⟨_, _, _, _, rfl, rfl, rfl, rfl, rfl, rfl⟩, ?_, ?_, ?_⟩
  · simp only [s₅, put, LexState.afterDot, Array.back?_push]
    rfl
  · intro t ht
    simp only [List.mem_cons, List.not_mem_nil, or_false] at ht
    rcases ht with rfl | rfl | rfl | rfl <;> rfl
  · simp only [s₅, s₄, s₃, s₂, putName, put, Array.toList_push, htokens, List.append_assoc]
    rfl
  · have hscan₂ := Canonical.scan_step _ hstep₂
    have hscan₃ := Canonical.scan_step [] hstep₃
    have hscan₄ := Canonical.scan_step m hstep₄
    have hscan₅ := Canonical.scan_step [] hstep₅
    have hlength : pos + (PlacedPiece.blank spaced ++ (("File." : Text) ++ c :: m ++ "(")).length =
        start + 5 + (m.length + 1) + 1 := by
      have hfile : ("File." : Text).length = 5 := rfl
      have hparen : ("(" : Text).length = 1 := rfl
      simp only [start, List.length_append, List.length_cons, hfile, hparen]
      omega
    have htext : PlacedPiece.blank spaced ++ (("File." : Text) ++ c :: m ++ "(") ++ rest =
        PlacedPiece.blank spaced ++ (("File." : Text) ++ c :: (m ++ ('(' : CodeUnit) :: rest)) := by
      simp only [List.append_assoc, List.cons_append]
      rfl
    rw [hlength, htext]
    exact hscan.trans (hscan₂.trans (hscan₃.trans (hscan₄.trans hscan₅)))

end Cookbook
