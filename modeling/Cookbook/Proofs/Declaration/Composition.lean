import Cookbook.Proofs.Declaration.Embedding
import Cookbook.Proofs.Statement.Boundary

/-!
A recipe followed by another text. When nothing is left open at its end, it declares what it declares
alone, whatever comes after it; and what comes after declares what it would alone, with the names
that the recipe leaves in force.

* `Text.ClosedBefore` says that nothing is left open between two texts;
* `Text.ClosedBefore.statements` splits the statements of the whole file;
* `extractDeclarations_append` splits what it declares.
-/

namespace Cookbook

/-- The text `before` leaves nothing open when `after` follows: it ends in a newline that ends its
last line, its tokens do not depend on what follows, it is read without a problem, its brackets are
balanced, its last command asks for no more, and `after` does not start with a dot. -/
structure Text.ClosedBefore (before after : Text) : Prop where
  newline : before.getLast? = some ('\n' : CodeUnit)
  tokens : (lex (before ++ after) 0).tokens = (lex before 0).tokens ++ (lex after before.length).tokens
  problems :
    (lex (before ++ after) 0).problems = (lex before 0).problems ++ (lex after before.length).problems
  line : (lex before 0).tokens.getLast?.all Token.isNewline = true
  clean : (Program.ofText before).problems = []
  balanced : Balanced (lex before 0).tokens
  finished : endsUnfinished (Program.ofText before).statements = false
  noDot : (lex after before.length).tokens.head?.any (·.isPunct [".", "&."]) = false

theorem Text.closedBefore_iff {before after : Text} :
    before.ClosedBefore after ↔
      before.getLast? = some ('\n' : CodeUnit) ∧
      (lex (before ++ after) 0).tokens =
        (lex before 0).tokens ++ (lex after before.length).tokens ∧
      (lex (before ++ after) 0).problems =
        (lex before 0).problems ++ (lex after before.length).problems ∧
      (lex before 0).tokens.getLast?.all Token.isNewline = true ∧
      (Program.ofText before).problems = [] ∧ Balanced (lex before 0).tokens ∧
      endsUnfinished (Program.ofText before).statements = false ∧
      (lex after before.length).tokens.head?.any (·.isPunct [".", "&."]) = false := by
  constructor
  · rintro ⟨h1, h2, h3, h4, h5, h6, h7, h8⟩
    exact ⟨h1, h2, h3, h4, h5, h6, h7, h8⟩
  · rintro ⟨h1, h2, h3, h4, h5, h6, h7, h8⟩
    exact ⟨h1, h2, h3, h4, h5, h6, h7, h8⟩

instance Text.instDecidableClosedBefore (before after : Text) :
    Decidable (before.ClosedBefore after) := decidable_of_iff _ Text.closedBefore_iff.symm

namespace Text.ClosedBefore

variable {before after : Text} (h : before.ClosedBefore after)

include h

theorem continues :
    (TokenSource.ofText (before ++ after)).Continues (.ofText before)
      (lex after before.length).tokens :=
  ⟨h.tokens, h.noDot⟩

theorem endsLine : (TokenSource.ofText before).EndsLine := by
  intro t ht
  have hline := h.line
  rwa [show (lex before 0).tokens.getLast? = some t from ht] at hline

theorem ends :
    (TokenSource.ofText (before ++ after)).Ends (.ofText after) before.length
      (lex before 0).tokens.length where
  tokens := by
    have hlex := lex_add after 0 before.length
    rw [Nat.zero_add] at hlex
    show (lex (before ++ after) 0).tokens.drop _ = _
    rw [h.tokens, List.drop_left, hlex]
    rfl
  le_size := by
    show _ ≤ (lex (before ++ after) 0).tokens.length
    rw [h.tokens, List.length_append]
    exact Nat.le_add_right _ _
  startsLine := by
    show _ ∨ ((lex (before ++ after) 0).tokens[_]?).all Token.isNewline = true
    rw [h.tokens]
    rcases List.eq_nil_or_concat (lex before 0).tokens with hnil | ⟨rest, last, hlast⟩
    · exact .inl (by rw [hnil]; rfl)
    · refine .inr ?_
      have hnewline := h.endsLine last (by
        show (lex before 0).tokens.getLast? = _
        rw [hlast, List.concat_eq_append, List.getLast?_concat])
      simp [hlast, hnewline]
  indent := by
    intro offset
    exact LineIndex.indent_append (.inr h.newline) after offset

/-- The whole file has the statements of the first text, and then those of the second, moved. -/
theorem statements :
    (Program.ofText (before ++ after)).statements =
      (Program.ofText before).statements ++
        (Program.ofText after).statements.map
          (Statement.shift before.length (lex before 0).tokens.length) := by
  have hsize : (TokenSource.ofText (before ++ after)).size =
      (TokenSource.ofText before).size + (TokenSource.ofText after).size := by
    have hlex := lex_add after 0 before.length
    rw [Nat.zero_add] at hlex
    show (lex (before ++ after) 0).tokens.length = _
    rw [h.tokens, hlex, List.length_append, Lexed.shift, List.length_map]
    rfl
  have hle : ∀ src : TokenSource, src.size ≤ (TokenSource.ofText (before ++ after)).size →
      src.fuel ≤ (TokenSource.ofText (before ++ after)).fuel := by
    intro src hsrc
    unfold TokenSource.fuel
    omega
  -- each part is read alone with less fuel, and that changes nothing
  have hfirst := TokenSource.parsed_of_le (hle (.ofText before) (by omega))
  have hsecond := TokenSource.parsed_of_le (hle (.ofText after) (by omega))
  have hclean : (TokenSource.ofText before).parsed.problems = [] :=
    (List.append_eq_nil_iff.1 h.clean).2
  have hsplit := parseStatements_append h.continues h.endsLine h.balanced
    ((TokenSource.ofText before).holds_cursor 0) (Nat.zero_le _)
    (TokenSource.ofText (before ++ after)).fuel_enough (by rw [hfirst, hclean])
    (by rw [hfirst]; exact h.finished)
  have hmoved := (moved h.ends (TokenSource.ofText (before ++ after)).fuel).statements
    (fun _ => false) _ (fun _ => rfl) ((TokenSource.ofText after).holds_cursor 0)
  have hcursor₀ : ((TokenSource.ofText before).cursor 0).append (lex after before.length).tokens =
      (TokenSource.ofText (before ++ after)).cursor 0 := by
    show (⟨0, (lex before 0).tokens ++ _⟩ : Cursor) = ⟨0, (lex (before ++ after) 0).tokens⟩
    rw [h.tokens]
  have hcursor₁ : ((TokenSource.ofText after).cursor 0).shift before.length
      (lex before 0).tokens.length =
      (TokenSource.ofText (before ++ after)).cursor (TokenSource.ofText before).size := by
    show (⟨_, _⟩ : Cursor) = ⟨_, _⟩
    rw [show (TokenSource.ofText (before ++ after)).tokens.drop (TokenSource.ofText before).size = _
      from h.ends.tokens]
    simp [TokenSource.cursor, Cursor.at', TokenSource.size, TokenSource.ofText]
  rw [hcursor₀, hfirst] at hsplit
  rw [hcursor₁, hsecond] at hmoved
  rw [hmoved] at hsplit
  rw [Program.statements_ofText, TokenSource.parsed, hsplit]
  rfl

end Text.ClosedBefore

/-! ### Declarations -/

theorem Declaration.shift_zero : Declaration.shift 0 0 = id := by
  have hproperty : Property.shift 0 0 = id := rfl
  have hguard : Guard.shift 0 0 = id := rfl
  have hnotification : Notification.shift 0 0 = id := rfl
  have hcontext : ContextCondition.shift 0 0 = id := rfl
  funext d
  unfold Declaration.shift
  rw [hproperty, hguard, hnotification, hcontext, List.map_id, List.map_id, List.map_id, List.map_id]
  rfl

/-- The statements of a recipe, read in a longer file after some others, add what the recipe declares
when it starts with the names in force there. -/
theorem Program.extract_shift {r : RecipeReader} {source text before after : Text}
    {knownTypes : List Text} (h : r.Embeds ⟨source, .ofText text, knownTypes⟩ before after) (n : Nat)
    (e : Extraction) :
    (extractList r ⟨[], false⟩ ((Program.ofText text).statements.map (Statement.shift before.length n))
      e).Agrees e.declarations before.length before.lineCount
      (extractDeclarations source text knownTypes e.constants) := by
  have hstart : e.Agrees e.declarations before.length before.lineCount
      ⟨e.constants, [], (Program.ofText text).problems.map
        (Diagnostic.ofProblem source (Program.ofText text).lines)⟩ :=
    ⟨rfl, (List.append_nil _).symm⟩
  have hread := extractList_shift h n _ (listWithin_iff.2 (Program.within_ofText text)) ⟨[], false⟩
    hstart
  rwa [shiftList_eq] at hread

/-- The statements of a recipe, read at the start of a longer file, declare what they do alone. -/
theorem extractList_before (source before after : Text) (knownTypes : List Text) (e : Extraction) :
    let r : RecipeReader := ⟨source, .ofText (before ++ after), knownTypes⟩
    let first := extractDeclarations source before knownTypes e.constants
    let read := extractList r ⟨[], false⟩ (Program.ofText before).statements e
    read.declarations = e.declarations ++ first.declarations ∧ read.constants = first.constants := by
  intro r first read
  have hbefore : r.Embeds ⟨source, .ofText before, knownTypes⟩ [] after :=
    ⟨rfl, rfl, .inl rfl, rfl, rfl⟩
  have hfirst := Program.extract_shift hbefore 0 e
  rw [List.length_nil, shiftList_zero] at hfirst
  refine ⟨?_, hfirst.constants⟩
  rw [hfirst.declarations, show Text.lineCount [] = 0 from rfl, Declaration.shift_zero, List.map_id]

/-- A recipe that leaves nothing open declares the same whatever follows it, and what follows
declares what it would alone, further on and with the names that the recipe leaves in force. -/
theorem extractDeclarations_append {before after : Text} (h : before.ClosedBefore after)
    (source : Text) (knownTypes : List Text) (constants : Bindings Value) :
    let first := extractDeclarations source before knownTypes constants
    let second := extractDeclarations source after knownTypes first.constants
    let whole := extractDeclarations source (before ++ after) knownTypes constants
    whole.declarations =
        first.declarations ++
          second.declarations.map (Declaration.shift before.length before.lineCount) ∧
      whole.constants = second.constants := by
  intro first second whole
  let r : RecipeReader := ⟨source, .ofText (before ++ after), knownTypes⟩
  let start : Extraction := ⟨constants, [], r.program.problems.map (.ofProblem source r.program.lines)⟩
  let middle := extractList r ⟨[], false⟩ (Program.ofText before).statements start
  have hwhole : whole = extractList r ⟨[], false⟩
      ((Program.ofText after).statements.map
        (Statement.shift before.length (lex before 0).tokens.length)) middle := by
    show extractList r ⟨[], false⟩ (Program.ofText (before ++ after)).statements start = _
    rw [h.statements, extractList_append]
  have hafter : r.Embeds ⟨source, .ofText after, knownTypes⟩ before [] := by
    refine ⟨rfl, rfl, .inr h.newline, rfl, ?_⟩
    rw [List.append_nil]
    rfl
  obtain ⟨hdeclarations, hconstants⟩ := extractList_before source before after knownTypes start
  have hsecond := Program.extract_shift hafter (lex before 0).tokens.length middle
  rw [← hwhole, hconstants, hdeclarations] at hsecond
  exact ⟨hsecond.declarations, hsecond.constants⟩

theorem extractDeclarations_append_unclosed :
    let before : Text := "x = 'a'\npackage x do\nend\n"
    let after : Text := "package x do\n  action [x\n"
    let first := extractDeclarations "a.rb" before [] .empty
    let second := extractDeclarations "a.rb" after [] first.constants
    let whole := extractDeclarations "a.rb" (before ++ after) [] .empty
    whole.declarations =
        first.declarations ++
          second.declarations.map (Declaration.shift before.length before.lineCount) ∧
      whole.constants = second.constants := by
  refine extractDeclarations_append ?_ "a.rb" [] .empty
  decide +kernel

-- a backslash before the newline leaves the line open, although the tokens of both parts are kept
example :
    let before : Text := "package 'a' \\\n"
    let after : Text := " do\nend\n"
    (lex (before ++ after) 0).tokens = (lex before 0).tokens ++ (lex after before.length).tokens ∧
      (Program.ofText before).problems = [] ∧
      (extractDeclarations "a.rb" (before ++ after) [] .empty).declarations.length = 1 ∧
      (extractDeclarations "a.rb" before [] .empty).declarations.length = 0 ∧
      (extractDeclarations "a.rb" after [] .empty).declarations.length = 0 := by
  decide +kernel

end Cookbook
