import Cookbook.Attribute.File
import Cookbook.Proofs.Attribute.Lines
import Cookbook.Proofs.Statement.Fuel
import Cookbook.Proofs.Value.Heads
import Cookbook.Proofs.Value.RoundTrip

/-!
Printed attribute files are read back.

* `spelled_printLines` says that each line of a file is a command of its own;
* `AttributeReader.command_line` is what one line adds to the assignments;
* `AttributeFile.ofText_printLines` is the whole round trip.
-/

namespace Cookbook

open Canonical (Reads NoDot)
open Written

/-! ### Statements -/

namespace AttributeLine

variable (line : AttributeLine)

/-- The statement is a command made of the line's tokens alone. -/
def Spelled (s : Statement) : Prop :=
  ∃ extent pos, s = .command ⟨extent, layout pos line.pieces, none, [], none⟩

theorem pieces_cons : ∃ w more, line.pieces = ⟨false, .word w⟩ :: more ∧ keywords.contains w = false := by
  unfold pieces targetPieces rootPieces
  cases line.ofNode with
  | false => exact ⟨_, _, rfl, line.precedence.word_isName.2⟩
  | true => exact ⟨_, _, rfl, by decide⟩

theorem holds_rootPieces {d : CommandDraft} (pos : Nat) : d.Holds (layout pos line.rootPieces) := by
  have hlevel : (Piece.word line.precedence.word).isPlain = true := by
    rw [Piece.isPlain, line.precedence.word_isName.2]
    rfl
  unfold rootPieces
  cases line.ofNode with
  | false => exact holds_word hlevel false pos
  | true =>
    have hdot : ∀ {d : CommandDraft} pos, d.Holds [(mark ".").token pos] :=
      fun pos => .token (isPlain_token (by decide) pos) rfl rfl
    exact (holds_word (w := "node") (by decide) false pos).append
      ((hdot _).append (holds_word hlevel false _))

/-- The tokens of a line go into the head of a command. The brace of a hash opens no block, because it
comes after the mark of assignment. -/
theorem holds_pieces (pos : Nat) : CommandDraft.empty.Holds (layout pos line.pieces) := by
  have htarget : CommandDraft.empty.Holds (layout pos line.targetPieces) := by
    unfold targetPieces
    rw [layout_append]
    exact (line.holds_rootPieces pos).append (holds_keys _ _)
  let d := Canonical.pushRun .empty (layout pos line.targetPieces)
  let equals := (⟨true, .mark "="⟩ : Placed).token (pos + (printed line.targetPieces).length)
  have hequals : d.Holds [equals] := .token (isPlain_token (by decide) _) rfl rfl
  have hhash : (d.push equals).TakesHash := .inr rfl
  unfold pieces
  rw [layout_append]
  exact htarget.append (hequals.append (Written.holds_pieces line.printable hhash true _))

theorem continuesLine (pos : Nat) :
    (layout pos line.pieces).getLast?.any Token.continuesLine = false := by
  obtain ⟨p, hp, hends⟩ := getLast?_pieces line.printable true
  have hlast : line.pieces.getLast? = some p := by
    unfold pieces
    rw [List.getLast?_append, List.getLast?_cons, hp]
    rfl
  obtain ⟨pos', hlayout⟩ := getLast?_layout pos hlast
  rw [hlayout]
  exact continuesLine_token hends pos'

end AttributeLine

theorem noDot_lineTokens (pos : Nat) (lines : List AttributeLine) : NoDot (lineTokens pos lines) := by
  cases lines with
  | nil => rfl
  | cons line lines =>
    obtain ⟨w, more, hpieces, -⟩ := line.pieces_cons
    rw [lineTokens, hpieces]
    exact isPunct_word pos false w _

/-- The lines are read as commands, one for each. -/
theorem reads_lineTokens (src : TokenSource) (lines : List AttributeLine) {seps : List Token}
    (hseps : ∀ sep ∈ seps, sep.isSeparator = true) (pos i : Nat) :
    ∃ body j, List.Forall₂ AttributeLine.Spelled lines body ∧
      Reads (fun fuel => parseStatements src fuel (fun _ => false) ⟨i, seps ++ lineTokens pos lines⟩)
        ⟨body, ⟨j, []⟩, []⟩ := by
  induction lines generalizing seps pos i with
  | nil => exact ⟨[], i + seps.length, .nil, Canonical.reads_done src hseps rfl rfl i⟩
  | cons line lines ih =>
    let nl := newlineAt (pos + (printed line.pieces).length)
    let next := pos + line.print.length
    have hnl : ∀ sep ∈ [nl], sep.isSeparator = true := Canonical.isSeparator_of_mem_newline _
    obtain ⟨w, more, hpieces, hword⟩ := line.pieces_cons
    let first := (⟨false, .word w⟩ : Placed).token pos
    have hkeyword : ∀ words, first.isKeyword words = false := by
      intro words
      simp only [first, Token.isKeyword, Token.isOneOf, PlacedPiece.token, isPiece_content, Piece.content, hword]
      rfl
    have hnewline : nl.isNewline = true := rfl
    obtain ⟨extent, hread⟩ := reads_head src (line.holds_pieces pos) (line.continuesLine pos)
      hnewline (noDot_lineTokens next lines) hkeyword (i + seps.length)
    obtain ⟨body, j, hbody, hmore⟩ := ih hnl next (i + seps.length + (layout pos line.pieces).length)
    refine ⟨_ :: body, j, .cons ⟨extent, pos, rfl⟩ hbody, ?_⟩
    have hlayout : layout pos line.pieces = first :: layout (pos + w.length) more := by
      rw [hpieces]
      rfl
    have hfirst : first.isSeparator = false := isPunct_word pos false w [";"]
    have hstep : ∀ tokens, listStep (fun _ => false) (first :: tokens) = .statement first := by
      intro tokens
      have hcloser : first.isCloser = false := isPunct_word pos false w _
      simp [listStep, hkeyword, hcloser]
    rw [lineTokens]
    rw [hlayout] at hread hmore ⊢
    exact Canonical.reads_statement src hseps hfirst (hstep _) hread hmore

/-- Each line of a file is a command of its own, and nothing is wrong with the file. -/
theorem spelled_printLines (lines : List AttributeLine) :
    List.Forall₂ AttributeLine.Spelled lines (Program.ofText (printLines lines)).statements ∧
      (Program.ofText (printLines lines)).problems = [] := by
  have hlex := lex_printLines lines
  have hnone : ∀ sep ∈ ([] : List Token), sep.isSeparator = true :=
    fun _ hsep => absurd hsep List.not_mem_nil
  obtain ⟨body, j, hspelled, n, hread⟩ := reads_lineTokens (.ofText (printLines lines)) lines hnone 0 0
  have hcursor : (TokenSource.ofText (printLines lines)).cursor 0 = ⟨0, [] ++ lineTokens 0 lines⟩ := by
    show (⟨0, (lex (printLines lines) 0).tokens⟩ : Cursor) = _
    rw [hlex]
    rfl
  have hparsed : (TokenSource.ofText (printLines lines)).parsed = ⟨body, ⟨j, []⟩, []⟩ := by
    rw [← TokenSource.parsed_of_le (Nat.le_max_right n _), hcursor]
    exact hread _ (Nat.le_max_left n _)
  rw [Program.statements_ofText, hparsed]
  refine ⟨hspelled, ?_⟩
  show (lex (printLines lines) 0).problems ++ (TokenSource.ofText (printLines lines)).parsed.problems = []
  rw [hlex, hparsed]
  rfl

/-! ### Assignments -/

namespace AttributeLine

variable (line : AttributeLine)

/-- The assignment that the line makes, but for its span. -/
def assignment (source : Text) (index : Int) : Assignment :=
  ⟨line.precedence, line.keys, line.value, some index, some source, none, false⟩

theorem levelOf?_word (precedence : Precedence) : levelOf? precedence.word = some (precedence, false) := by
  cases precedence <;> decide

theorem valueOf?_word {w : Text} (h : keywords.contains w = false) (pos : Nat) :
    ((⟨false, .word w⟩ : Placed).token pos).valueOf? .ident = some w := by
  simp only [Token.valueOf?, PlacedPiece.token, isPiece_content, Piece.content, h]
  rfl

theorem leadingLevel?_layout (pos : Nat) (rest : List Token) :
    leadingLevel? (layout pos line.rootPieces ++ rest) =
      some (line.precedence, false, line.rootPieces.length) := by
  have hnotNode : line.precedence.word ≠ ("node" : Text) := by
    cases line.precedence <;> decide
  have hlevel := fun pos => valueOf?_word line.precedence.word_isName.2 pos
  unfold rootPieces
  cases line.ofNode with
  | false =>
    show leadingLevel? ((⟨false, .word line.precedence.word⟩ : Placed).token pos :: rest) = _
    simp only [leadingLevel?, hlevel, Option.bind_eq_bind, Option.bind_some, if_neg hnotNode,
      levelOf?_word]
    rfl
  | true =>
    have hnode := valueOf?_word (w := "node") (by decide) pos
    have hkind : ((⟨false, .word line.precedence.word⟩ : Placed).token (pos + 5)).isKind .ident = true := by
      rw [Token.isKind, hlevel]
      rfl
    have hdot : ((mark ".").token (pos + 4)).isPunct ["."] = true := rfl
    show leadingLevel? ((⟨false, .word "node"⟩ : Placed).token pos :: (mark ".").token (pos + 4) ::
      (⟨false, .word line.precedence.word⟩ : Placed).token (pos + 5) :: rest) = _
    simp only [leadingLevel?, hnode, Option.bind_eq_bind, Option.bind_some, if_true, hdot, hkind, hlevel,
      Bool.and_true, levelOf?_word]
    rfl

theorem assignmentTarget?_layout (constants : Bindings Value) (pos : Nat) :
    assignmentTarget? constants (layout pos line.targetPieces) "=" =
      some ⟨line.precedence, false, line.keys⟩ := by
  have hdrop : ∀ rest, (layout pos line.rootPieces ++ rest).drop line.rootPieces.length = rest := by
    intro rest
    rw [← length_layout pos line.rootPieces, List.drop_left]
  have hunset : ("=" : Text) ≠ "||=" := by decide
  unfold assignmentTarget? targetPieces
  rw [layout_append, line.leadingLevel?_layout]
  simp only [Option.bind_eq_bind, Option.bind_some, hdrop, readKeys_layout]
  simp [line.keys_ne_nil, length_layout, hunset]

/-- No token of what is assigned to is a mark of assignment. -/
theorem isPunct_targetPieces (pos : Nat) :
    ∀ t ∈ layout pos line.targetPieces, t.isPunct ["=", "||="] = false := by
  have hpieces : ∀ p ∈ line.targetPieces, ∀ pos, (p.token pos).isPunct ["=", "||="] = false := by
    intro p hp pos
    rcases List.mem_append.1 hp with hp | hp
    · have hroot : p = ⟨false, .word "node"⟩ ∨ p = mark "." ∨ p = ⟨false, .word line.precedence.word⟩ := by
        unfold rootPieces at hp
        cases hnode : line.ofNode <;> simp_all
      rcases hroot with rfl | rfl | rfl
      · exact isPunct_word pos false _ _
      · rfl
      · exact isPunct_word pos false _ _
    · obtain ⟨key, -, hp⟩ := List.mem_flatMap.1 hp
      simp only [keyPieces, List.mem_cons, List.not_mem_nil, or_false] at hp
      rcases hp with rfl | rfl | rfl <;> rfl
  intro t ht
  obtain ⟨p, hp, pos', rfl⟩ := mem_layout ht
  exact hpieces p hp pos'

end AttributeLine

def Assignment.unplaced (a : Assignment) : Assignment := { a with span := none }

theorem Written.normalize_pieces (ctx : NormalizeContext) {v : Value} (h : v.isPrintable = true)
    (spaced : Bool) (pos : Nat) : ctx.normalize (layout pos (pieces spaced v)) = .clean v := by
  have hne := layout_ne_nil (pieces_nonempty h spaced) pos
  unfold NormalizeContext.normalize NormalizeContext.fuel
  rw [if_neg (by simpa using hne), length_layout]
  exact readRun_pieces ctx h spaced pos (Nat.le_add_left _ _)

namespace AttributeReader

variable (r : AttributeReader) (source : Text) (p : Program) (line : AttributeLine) (extent : Extent)
  (pos : Nat)

/-- A line assigns the value on its right, whatever has been assigned before. -/
theorem command_line : ∃ pos',
    r.command source p false ⟨extent, layout pos line.pieces, none, [], none⟩ =
      r.assign source p.lines ⟨line.precedence, false, line.keys⟩ (p.spanOf extent) false
        (layout pos' (Written.pieces true line.value)) := by
  let equals := (⟨true, .mark "="⟩ : Placed).token (pos + (printed line.targetPieces).length)
  obtain ⟨pos', hlayout⟩ : ∃ pos', layout pos line.pieces =
      layout pos line.targetPieces ++ equals :: layout pos' (Written.pieces true line.value) := by
    unfold AttributeLine.pieces
    rw [layout_append]
    exact ⟨_, rfl⟩
  have hleft : (layout pos line.pieces).takeWhile (fun t => !t.isPunct ["=", "||="]) =
      layout pos line.targetPieces := by
    rw [hlayout, List.takeWhile_append_of_pos fun t ht => by rw [line.isPunct_targetPieces pos t ht]; rfl]
    exact List.append_nil _
  have hright : (layout pos line.pieces).drop (layout pos line.targetPieces).length =
      equals :: layout pos' (Written.pieces true line.value) := by
    rw [hlayout, List.drop_left]
  -- a path follows the level, so the left side is no local name
  have hlocal : (layout pos line.targetPieces).isEmpty = false ∧
      localName? (layout pos line.targetPieces) equals.text = none := by
    obtain ⟨key, keys, hkeys⟩ := List.exists_cons_of_ne_nil line.keys_ne_nil
    unfold AttributeLine.targetPieces AttributeLine.rootPieces
    rw [hkeys]
    cases line.ofNode <;> exact ⟨rfl, rfl⟩
  have htarget : assignmentTarget? r.constants (layout pos line.targetPieces) equals.text =
      some ⟨line.precedence, false, line.keys⟩ :=
    line.assignmentTarget?_layout r.constants pos
  refine ⟨pos', ?_⟩
  unfold command
  simp only [hleft, hright, hlocal, htarget]
  rfl

theorem command_line_adds :
    let r' := r.command source p false ⟨extent, layout pos line.pieces, none, [], none⟩
    r'.assignments.map Assignment.unplaced =
        r.assignments.map Assignment.unplaced ++ [line.assignment source r.nextIndex] ∧
      r'.diagnostics = r.diagnostics ∧ r'.nextIndex = r.nextIndex + 1 := by
  obtain ⟨pos', hassign⟩ := r.command_line source p line extent pos
  have hvalue := normalize_pieces ⟨source, p.lines, r.constants⟩ line.printable true pos'
  dsimp only
  rw [hassign]
  unfold assign
  rw [hvalue]
  refine ⟨List.map_append, List.append_nil _, rfl⟩

end AttributeReader

theorem readAttributeList_lines {lines : List AttributeLine} {body : List Statement}
    (h : List.Forall₂ AttributeLine.Spelled lines body) (source : Text) (p : Program)
    (r : AttributeReader) :
    let r' := readAttributeList source p false body r
    r'.assignments.map Assignment.unplaced =
        r.assignments.map Assignment.unplaced ++
          lines.mapIdx (fun i line => line.assignment source (r.nextIndex + i)) ∧
      r'.diagnostics = r.diagnostics := by
  induction h generalizing r with
  | nil => exact ⟨(List.append_nil _).symm, rfl⟩
  | @cons line s lines body hs _ ih =>
    obtain ⟨extent, pos, rfl⟩ := hs
    obtain ⟨hassignments, hdiagnostics, hindex⟩ := r.command_line_adds source p line extent pos
    let r₁ := r.command source p false ⟨extent, layout pos line.pieces, none, [], none⟩
    obtain ⟨hassignments', hdiagnostics'⟩ := ih r₁
    refine ⟨?_, hdiagnostics'.trans hdiagnostics⟩
    show (readAttributeList source p false body r₁).assignments.map Assignment.unplaced = _
    rw [hassignments', hassignments, hindex, List.mapIdx_cons, List.append_assoc]
    have hnext : ∀ i : Nat, r.nextIndex + 1 + (i : Int) = r.nextIndex + ((i + 1 : Nat) : Int) := by
      intro i
      omega
    simp only [hnext, Int.natCast_zero, Int.add_zero, List.singleton_append]

/-- A printed attribute file is read back: the assignments of its lines in order, with indexes from
the given one on, none of them conditional, and nothing is said about the file. -/
theorem AttributeFile.ofText_printLines (lines : List AttributeLine) (source : Text) (startIndex : Int)
    (assigned : AssignedPaths) :
    let file := AttributeFile.ofText source (printLines lines) startIndex assigned
    file.assignments.map Assignment.unplaced =
        lines.mapIdx (fun i line => line.assignment source (startIndex + i)) ∧
      file.diagnostics = [] := by
  obtain ⟨hspelled, hproblems⟩ := spelled_printLines lines
  obtain ⟨hassignments, hdiagnostics⟩ := readAttributeList_lines hspelled source
    (Program.ofText (printLines lines))
    ⟨.empty, assigned, [], (Program.ofText (printLines lines)).problems.map
      (Diagnostic.ofProblem source (Program.ofText (printLines lines)).lines), startIndex⟩
  refine ⟨hassignments, hdiagnostics.trans ?_⟩
  rw [hproblems]
  rfl

example :
    let lines : List AttributeLine :=
      [⟨false, .default, ["it's", ""], .list [.literal .nil], by decide, by decide⟩,
        ⟨true, .forceOverride, ["=>"], .map [⟨"\n", .path .node ["]"]⟩], by decide, by decide⟩]
    printLines lines = Text.ofString ("default['it\\'s'][''] = [nil]\n" ++
        "node.force_override['=>'] = \x7b'\n' => node[']']\x7d\n") ∧
      (AttributeFile.ofText "default.rb" (printLines lines) 5 .empty).assignments.map
        (fun a => (a.precedence, a.index)) = [(.default, some 5), (.forceOverride, some 6)] := by
  decide +kernel

end Cookbook
