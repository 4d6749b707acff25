import Cookbook.Proofs.Statement.Prefix

/-!
Texts that are one command. Such a text is read alone up to its end; before other tokens it goes on
where it would have ended, and a modifier at its end goes on with its line.

* `IsCommand text c` says that a text is one command, and `IsCommand.goesOn` what becomes of it before
  other tokens;
* `GoesOn.of_no_modifier` is a command without a modifier, `GoesOn.of_finished` one whose modifier a
  separator ends, and `GoesOn.of_modifier` one whose modifier takes the next token.
-/

namespace Cookbook

/-! ### Lists of statements -/

/-- Whether a list of statements passes over a token without a problem. -/
def Token.isPassedOver (t : Token) : Bool :=
  t.isSeparator || t.isKeyword ["else", "rescue", "ensure", "then"]

/-- Whether a statement that starts with the token is a command. -/
def Token.startsCommand (t : Token) : Bool :=
  !t.isPassedOver && !(t.isKeyword ["end", "elsif", "when"] || t.isCloser) &&
    !t.isKeyword ["if", "unless", "case"] && !t.isKeyword compoundWords

theorem Token.not_isSeparator_of_startsCommand {t : Token} (h : t.startsCommand = true) :
    t.isSeparator = false := by
  simp only [Token.startsCommand, Token.isPassedOver, Bool.and_eq_true, Bool.not_eq_true',
    Bool.or_eq_false_iff] at h
  exact h.1.1.1.1

section Lists

variable {src : TokenSource} {fuel : Nat} {c : Cursor}

/-- What is left of a file after the last statement is passed over. -/
theorem isPassedOver_of_no_statement (hfuel : c.rest.length < fuel)
    (h : (parseStatements src fuel (fun _ => false) c).problems = [])
    (hnone : (parseStatements src fuel (fun _ => false) c).value = []) :
    ∀ t ∈ c.rest, t.isPassedOver = true := by
  induction fuel generalizing c with
  | zero => exact absurd hfuel (Nat.not_lt_zero _)
  | succ fuel ih =>
    have hsplit : c.rest.takeWhile Token.isSeparator ++ c.skipSeparators.rest = c.rest := by
      rw [Cursor.rest_skipSeparators, List.takeWhile_append_dropWhile]
    suffices hskip : ∀ t ∈ c.skipSeparators.rest, t.isPassedOver = true by
      intro t ht
      rw [← hsplit, List.mem_append] at ht
      rcases ht with ht | ht
      · simp only [Token.isPassedOver, List.mem_takeWhile_imp ht, Bool.true_or]
      · exact hskip t ht
    rw [parseStatements_succ] at h hnone
    cases hstep : listStep (fun _ => false) c.skipSeparators.rest with
    | done =>
      intro t ht
      rw [rest_of_listStep_done hstep] at ht
      exact absurd ht (List.not_mem_nil)
    | stray t =>
      rw [hstep] at h
      exact absurd h (by simp)
    | statement t =>
      rw [hstep] at hnone
      exact absurd hnone (List.cons_ne_nil _ _)
    -- a word that closes nothing is passed over, and reading goes on right of it
    | pass =>
      rw [hstep] at h hnone
      obtain ⟨t, rest, hrest, hword⟩ := listStep_pass hstep
      have hlength := congrArg List.length hsplit
      rw [hrest, List.length_append, List.length_cons] at hlength
      have hnext : c.skipSeparators.next.rest = rest := by rw [Cursor.rest_next, hrest, List.tail_cons]
      have hmore := ih (c := c.skipSeparators.next) (by rw [hnext]; omega) h hnone
      rw [hnext] at hmore
      rw [hrest]
      intro u hu
      rcases List.mem_cons.1 hu with rfl | hu
      · simp only [Token.isPassedOver, hword, Bool.or_true]
      · exact hmore u hu

theorem parseStatements_done {stop : Token → Bool} {seps tokens : List Token} {i : Nat}
    (hseps : ∀ sep ∈ seps, sep.isSeparator = true)
    (htokens : tokens.head?.any Token.isSeparator = false) (hstep : listStep stop tokens = .done) :
    parseStatements src (fuel + 1) stop ⟨i, seps ++ tokens⟩ = ⟨[], ⟨i + seps.length, tokens⟩, []⟩ := by
  rw [parseStatements_succ, Cursor.skipSeparators_separators tokens hseps htokens, hstep]

theorem parseStatements_command {stop : Token → Bool} {t : Token} {rest : List Token}
    (hrest : c.rest = t :: rest) (ht : t.startsCommand = true) (hstop : stop t = false) :
    parseStatements src (fuel + 2) stop c =
      let first := parseCommand src fuel t c.index .empty c
      let more := parseStatements src (fuel + 1) stop first.cursor
      ⟨.command first.value :: more.value, more.cursor, first.problems ++ more.problems⟩ := by
  have hskip := c.skipSeparators_of_not hrest (Token.not_isSeparator_of_startsCommand ht)
  simp only [Token.startsCommand, Token.isPassedOver, Bool.and_eq_true, Bool.not_eq_true',
    Bool.or_eq_false_iff] at ht
  obtain ⟨⟨⟨⟨-, hpass⟩, hstray⟩, hif⟩, hcompound⟩ := ht
  have hstep : listStep stop c.rest = .statement t := by
    rw [hrest]
    simp [listStep, hstop, hstray, hpass]
  have hstatement : parseStatement src (fuel + 1) t c =
      (parseCommand src fuel t c.index .empty c).map .command := by
    rw [parseStatement_succ, if_neg (by simp [hif]), if_neg (by simp [hcompound])]
  rw [parseStatements_succ, hskip, hstep]
  dsimp only
  rw [hstatement]
  rfl

/-- What is not passed over and is read as a command without a problem starts one. -/
theorem startsCommand_of_value {t : Token} {rest : List Token} {command : Command}
    {more : List Statement} (hrest : c.rest = t :: rest) (hpass : t.isPassedOver = false)
    (h : (parseStatements src (fuel + 2) (fun _ => false) c).problems = [])
    (hvalue : (parseStatements src (fuel + 2) (fun _ => false) c).value = .command command :: more) :
    t.startsCommand = true := by
  obtain ⟨hsep, hword⟩ := Bool.or_eq_false_iff.1 hpass
  rw [parseStatements_succ, c.skipSeparators_of_not hrest hsep, hrest] at h hvalue
  have hstray : (t.isKeyword ["end", "elsif", "when"] || t.isCloser) = false := by
    rw [Bool.eq_false_iff]
    intro hstray
    simp [listStep, hstray] at h
  have hstep : listStep (fun _ => false) (t :: rest) = .statement t := by
    simp [listStep, hstray, hword]
  rw [hstep] at hvalue
  have hfirst := (List.cons.inj hvalue).1
  rw [parseStatement_succ] at hfirst
  have hif : t.isKeyword ["if", "unless", "case"] = false := by
    rw [Bool.eq_false_iff]
    intro hif
    rw [if_pos hif] at hfirst
    exact absurd hfirst Statement.noConfusion
  have hcompound : t.isKeyword compoundWords = false := by
    rw [Bool.eq_false_iff]
    intro hcompound
    rw [if_neg (by simp [hif]), if_pos hcompound] at hfirst
    exact absurd hfirst Statement.noConfusion
  simp [Token.startsCommand, hpass, hstray, hif, hcompound]

end Lists

/-! ### Texts that are one command -/

/-- The text is one command from its first token to its last one, and nothing is wrong with it. -/
structure IsCommand (text : Text) (command : Command) : Prop where
  problems : (Program.ofText text).problems = []
  statements : (Program.ofText text).statements = [.command command]
  starts : (lex text 0).tokens.head?.any Token.isPassedOver = false
  ends : (lex text 0).tokens.getLast?.any Token.isPassedOver = false

namespace IsCommand

variable {text : Text} {command : Command} (h : IsCommand text command)

include h

theorem exists_first :
    ∃ t rest, (lex text 0).tokens = t :: rest ∧ t.startsCommand = true := by
  let src := TokenSource.ofText text
  have hproblems : src.parsed.problems = [] := (List.append_eq_nil_iff.1 h.problems).2
  have hvalue : src.parsed.value = [.command command] := h.statements
  have hparsed : src.parsed =
      parseStatements src (6 * src.size + 10 + 2) (fun _ => false) (src.cursor 0) := rfl
  cases htokens : (lex text 0).tokens with
  | nil =>
    have hnil : (src.cursor 0).skipSeparators.rest = [] := by
      rw [Cursor.rest_skipSeparators, show (src.cursor 0).rest = [] from htokens]
      rfl
    rw [hparsed, parseStatements_succ, hnil] at hvalue
    exact absurd hvalue.symm (List.cons_ne_nil _ _)
  | cons t rest =>
    have hpass : t.isPassedOver = false := by
      have hstarts := h.starts
      rw [htokens] at hstarts
      exact hstarts
    have hrest : (src.cursor 0).rest = t :: rest := htokens
    exact ⟨t, rest, rfl, startsCommand_of_value hrest hpass hproblems hvalue⟩

/-- Where only tokens that are passed over are left, the text is at its end. -/
theorem size_le {c : Cursor} (hc : (TokenSource.ofText text).Holds c)
    (hover : ∀ t ∈ c.rest, t.isPassedOver = true) : (TokenSource.ofText text).size ≤ c.index := by
  refine Nat.le_of_not_lt fun hlt => ?_
  have hne : (lex text 0).tokens ≠ [] := List.ne_nil_of_length_pos (Nat.zero_lt_of_lt hlt)
  have hu : (lex text 0).tokens.getLast? = some ((lex text 0).tokens.getLast hne) :=
    List.getLast?_eq_some_getLast hne
  have hmem : (lex text 0).tokens.getLast hne ∈ c.rest := by
    refine List.mem_of_getLast? ?_
    rw [hc, List.getLast?_drop]
    exact (if_neg (Nat.not_le.2 hlt)).trans hu
  have hends := h.ends
  rw [hu] at hends
  exact Bool.false_ne_true (hends.symm.trans (hover _ hmem))

/-- The command is all that is read of the text, from the first token to the last one. -/
theorem reads :
    let src := TokenSource.ofText text
    ∃ t rest, src.tokens = t :: rest ∧ t.startsCommand = true ∧
      ∀ fuel, 6 * src.size + 8 ≤ fuel →
        let p := parseCommand src fuel t 0 .empty (src.cursor 0)
        p.problems = [] ∧ p.value = command ∧ src.size ≤ p.cursor.index := by
  intro src
  obtain ⟨t, rest, htokens, ht⟩ := h.exists_first
  refine ⟨t, rest, htokens, ht, fun fuel hfuel => ?_⟩
  have hcommand : parseCommand src fuel t 0 .empty (src.cursor 0) =
      parseCommand src (6 * src.size + 10) t 0 .empty (src.cursor 0) := by
    have hleft : 6 * src.left (src.cursor 0).index + 2 ≤ 6 * src.size + 8 := by
      show 6 * (src.size + 1 - 0) + 2 ≤ _
      omega
    have hc := src.holds_cursor 0
    have hplaced : (ParserCall.command t 0 .empty (src.cursor 0)).Placed src :=
      ⟨hc, le_rfl, hc.index_lt htokens⟩
    rw [parseCommand_of_le hplaced hleft hfuel,
      parseCommand_of_le hplaced hleft (by omega : _ ≤ 6 * src.size + 10)]
  have hproblems : src.parsed.problems = [] := (List.append_eq_nil_iff.1 h.problems).2
  have hvalue : src.parsed.value = [.command command] := h.statements
  have hrest : (src.cursor 0).rest = t :: rest := htokens
  have hparsed : src.parsed =
      parseStatements src (6 * src.size + 10 + 2) (fun _ => false) (src.cursor 0) := rfl
  rw [hparsed, parseStatements_command hrest ht rfl] at hproblems hvalue
  rw [hcommand]
  obtain ⟨hprob₁, hprob₂⟩ := List.append_eq_nil_iff.1 hproblems
  obtain ⟨hfirst, hmore⟩ := List.cons.inj hvalue
  have hend := ((progress src (6 * src.size + 10)).command t 0 .empty (src.cursor 0) 0
    (src.holds_cursor 0) le_rfl (Nat.zero_le _)).1.1
  have hlength := hend.length_rest
  have hover := isPassedOver_of_no_statement (by
    show (parseCommand src (6 * src.size + 10) t 0 .empty (src.cursor 0)).cursor.rest.length < _
    omega) hprob₂ hmore
  exact ⟨hprob₁, Statement.command.inj hfirst, h.size_le hend hover⟩

end IsCommand

/-! ### Lines at the end of a file -/

/-- A line goes on at a token that is not passed over. -/
theorem lineStep_of_not_isPassedOver {t : Token} (h : t.isPassedOver = false) (last : Option Token)
    (depth : Nat) : lineStep false last depth t = .take := by
  obtain ⟨hsep, hword⟩ := Bool.or_eq_false_iff.1 h
  have hthen : ¬t.isKeyword ["then"] = true := fun hthen =>
    Bool.false_ne_true (hword.symm.trans (Token.isOneOf_of_subset hthen (by simp)))
  simp [lineStep, hsep, hthen, Token.not_isNewline_of_not_isSeparator hsep]

/-- A line that takes all tokens goes on after them, with the last one it took and the brackets that it
left open. -/
theorem lineRun_append_all {last : Option Token} {depth : Nat} {tokens : List Token}
    (h : tokens.length ≤ (lineRun false last depth tokens).2)
    (hends : tokens.getLast?.any Token.isPassedOver = false) (rest : List Token) :
    let run := (lineRun false last depth tokens).1
    let more := lineRun false (run.getLast?.or last) (run.foldl lineDepth depth) rest
    lineRun false last depth (tokens ++ rest) = (run ++ more.1, tokens.length + more.2) := by
  induction tokens generalizing last depth with
  | nil => simp [lineRun]
  | cons t tokens ih =>
    have hends' : tokens.getLast?.any Token.isPassedOver = false := by
      cases tokens with
      | nil => rfl
      | cons t' tokens => rwa [List.getLast?_cons_cons] at hends
    rw [List.cons_append, lineRun_cons, lineRun_cons]
    rw [lineRun_cons] at h
    cases hstep : lineStep false last depth t with
    | stop =>
      rw [hstep] at h
      exact absurd h (by simp)
    | close =>
      -- a line that ends with its last token ends with `then`
      rw [hstep, List.length_cons] at h
      cases tokens with
      | cons t' tokens => exact absurd h (by simp)
      | nil =>
        have ht : t.isPassedOver = false := hends
        rw [lineStep_of_not_isPassedOver ht] at hstep
        exact absurd hstep LineStep.noConfusion
    | skip =>
      rw [hstep, List.length_cons] at h
      have hmore := ih (Nat.le_of_succ_le_succ h) hends'
      dsimp only at hmore ⊢
      rw [hmore, List.length_cons, Nat.add_right_comm]
    | take =>
      rw [hstep, List.length_cons] at h
      have hmore := ih (Nat.le_of_succ_le_succ h) hends'
      have hlast : ∀ run : List Token, (t :: run).getLast?.or last = run.getLast?.or (some t) := by
        intro run
        rw [List.getLast?_cons]
        cases run.getLast? <;> rfl
      dsimp only at hmore ⊢
      rw [hmore, hlast, List.foldl_cons, List.length_cons, Nat.add_right_comm, List.cons_append]

/-- A line that would run to the end of the file runs on after it. -/
theorem Cursor.line_append_all {src : TokenSource} {c : Cursor} (hc : src.Holds c)
    (hle : c.index ≤ src.size) (hline : src.size ≤ (c.line false).2.index)
    (hends : src.tokens.getLast?.any Token.isPassedOver = false) (tail : List Token) :
    let run := (c.line false).1
    let more := lineRun false run.getLast? (run.foldl lineDepth 0) tail
    (c.append tail).line false = (run ++ more.1, ⟨src.size + more.2, tail.drop more.2⟩) := by
  have hlength := hc.length_rest
  have hlast : c.rest.getLast?.any Token.isPassedOver = false := by
    rw [hc, List.getLast?_drop]
    split
    · rfl
    · exact hends
  have hcount : c.rest.length ≤ (lineRun false none 0 c.rest).2 := by
    have : src.size ≤ c.index + (lineRun false none 0 c.rest).2 := hline
    omega
  have hall := lineRun_append_all hcount hlast tail
  dsimp only at hall ⊢
  rw [Option.or_none] at hall
  unfold Cursor.line Cursor.advance
  rw [Cursor.rest_append, hall]
  dsimp only
  rw [List.drop_length_add_append, Cursor.index_append]
  congr 2
  omega

/-- The line of a condition is finished: its brackets are closed, and its last token does not go on. -/
def Modifier.isFinished (m : Modifier) : Bool :=
  m.condition.foldl lineDepth 0 == 0 && !m.condition.getLast?.any Token.continuesLine

/-! ### Commands before other tokens -/

section After

variable {src src' : TokenSource} {tail : List Token} {first : Token} {start fuel : Nat} {c : Cursor}
  {command : Command} {q : Parsed Command}

/-- A command without a modifier goes on at the end of its file. -/
theorem GoesOn.of_no_modifier (h : GoesOn src src' tail first start fuel c command q)
    (hm : command.modifier = none) :
    ∃ g e, e.openers = [] ∧ command = e.build first start ∧ fuel + c.index ≤ g + src.size ∧
      q = parseCommand src' g first start e ⟨src.size, tail⟩ := by
  obtain ⟨g, e, c', hc', hopen, -, hsize, hfuel, hlast, rfl⟩ := h
  rcases hlast with ⟨hnil, hcommand⟩ | ⟨t, -, -, rfl⟩
  · have hlength := hc'.length_rest
    rw [hnil, List.length_nil] at hlength
    have hindex : c'.index = src.size := by omega
    refine ⟨g, e, hopen, hcommand, hindex ▸ hfuel, ?_⟩
    unfold Cursor.append
    rw [hnil, hindex, List.nil_append]
  · exact absurd hm (Option.some_ne_none _)

/-- A command with a modifier goes on with the line of its condition. -/
theorem GoesOn.at_modifier (hsrc : src'.Continues src tail)
    (h : GoesOn src src' tail first start fuel c command q) (hm : command.modifier ≠ none)
    (hfuel : src.size ≤ fuel) :
    ∃ e c' t, src.Holds c' ∧ c'.index < src.size ∧ src.size ≤ (c'.next.line false).2.index ∧
      command = (CommandDraft.addModifier e t (c'.next.line false).1).build first start ∧
      q = ⟨(e.addModifier t ((c'.next.append tail).line false).1).build first start,
        ((c'.next.append tail).line false).2, []⟩ := by
  obtain ⟨g, e, c', hc', hopen, hmodifier, hsize, hspent, hlast, rfl⟩ := h
  rcases hlast with ⟨-, rfl⟩ | ⟨t, hstep, hline, hcommand⟩
  · exact absurd hmodifier hm
  have hne : c'.rest ≠ [] := by
    intro hnil
    rw [hnil] at hstep
    exact absurd hstep CommandStep.noConfusion
  have hlt : c'.index < src.size := by
    obtain ⟨v, more, hrest⟩ := List.exists_cons_of_ne_nil hne
    exact hc'.index_lt hrest
  obtain ⟨g, rfl⟩ : ∃ k, g = k + 1 := ⟨g - 1, by omega⟩
  have hstep' : e.step (c'.append tail).rest = .modifier t := by
    rw [Cursor.rest_append, e.step_append hne hsrc.noDot, hstep]
  have hfinish : ∀ condition, (e.addModifier t condition).openers = [] := fun _ => hopen
  refine ⟨e, c', t, hc', hlt, hline, hcommand, ?_⟩
  rw [parseCommand_succ, hstep']
  dsimp only
  rw [Cursor.next_append _ hne, CommandDraft.finish_nil _ _ _ _ (hfinish _)]

/-- A finished modifier ends before a separator. -/
theorem GoesOn.of_finished {sep : Token} {rest : List Token}
    (hsrc : src'.Continues src (sep :: rest))
    (h : GoesOn src src' (sep :: rest) first start fuel c command q) {m : Modifier}
    (hm : command.modifier = some m) (hfinished : m.isFinished = true)
    (hends : src.tokens.getLast?.any Token.isPassedOver = false) (hsep : sep.isSeparator = true)
    (hfuel : src.size ≤ fuel) : q = ⟨command, ⟨src.size, sep :: rest⟩, []⟩ := by
  obtain ⟨e, c', t, hc', hlt, hline, hcommand, rfl⟩ :=
    h.at_modifier hsrc (by rw [hm]; exact Option.some_ne_none m) hfuel
  have hcondition : m.condition = (c'.next.line false).1 := by
    rw [hcommand] at hm
    exact congrArg Modifier.condition (Option.some.inj hm).symm
  have hstop : lineRun false (c'.next.line false).1.getLast?
      ((c'.next.line false).1.foldl lineDepth 0) (sep :: rest) = ([], 0) := by
    simp only [Modifier.isFinished, hcondition, Bool.and_eq_true, beq_iff_eq,
      Bool.not_eq_true'] at hfinished
    rw [lineRun_cons, hfinished.1]
    simp [lineStep, hsep, hfinished.2]
  rw [Cursor.line_append_all hc'.next hlt hline hends, hstop, List.append_nil, ← hcommand]
  rfl

/-- A modifier takes the next token if that is not passed over. -/
theorem GoesOn.of_modifier {u : Token} {rest : List Token} (hsrc : src'.Continues src (u :: rest))
    (h : GoesOn src src' (u :: rest) first start fuel c command q) (hm : command.modifier ≠ none)
    (hends : src.tokens.getLast?.any Token.isPassedOver = false) (hu : u.isPassedOver = false)
    (hfuel : src.size ≤ fuel) :
    q.problems = [] ∧ ∃ n, q.cursor.rest = rest.drop n := by
  obtain ⟨e, c', t, hc', hlt, hline, -, rfl⟩ := h.at_modifier hsrc hm hfuel
  refine ⟨rfl, ?_⟩
  rw [Cursor.line_append_all hc'.next hlt hline hends, lineRun_cons, lineStep_of_not_isPassedOver hu]
  exact ⟨_, rfl⟩

end After

/-- A text that is one command goes on with what is put after it. -/
theorem IsCommand.goesOn {text : Text} {command : Command} (h : IsCommand text command)
    {src' : TokenSource} {tail : List Token} (hsrc : src'.Continues (TokenSource.ofText text) tail) :
    let src := TokenSource.ofText text
    ∃ t rest, src.tokens = t :: rest ∧ t.startsCommand = true ∧
      ∀ fuel, 6 * src.size + 8 ≤ fuel →
        GoesOn src src' tail t 0 fuel (src.cursor 0) command
          (parseCommand src' fuel t 0 .empty (src'.cursor 0)) := by
  intro src
  obtain ⟨t, rest, htokens, ht, hreads⟩ := h.reads
  refine ⟨t, rest, htokens, ht, fun fuel hfuel => ?_⟩
  obtain ⟨hclean, hvalue, hend⟩ := hreads fuel hfuel
  have hcursor : src'.cursor 0 = (src.cursor 0).append tail := by
    show (⟨0, src'.tokens.drop 0⟩ : Cursor) = ⟨0, src.tokens.drop 0 ++ tail⟩
    rw [hsrc.tokens, List.drop_zero, List.drop_zero]
  have hgo := parseCommand_append hsrc (src.holds_cursor 0) (Nat.zero_le _) rfl hclean hend
  rw [hvalue, ← hcursor] at hgo
  exact hgo

end Cookbook
