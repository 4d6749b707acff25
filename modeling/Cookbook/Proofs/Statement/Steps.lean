import Cookbook.Statement.Parser
import Mathlib.Data.List.TakeWhile
import Mathlib.Tactic.Common

/-!
The parser one step at a time. What a call does next is a matter of the tokens ahead; it is chosen
by a function that makes no call itself, and the parser is that choice followed by the calls it asks
for.

* `listStep` and `parseStatements_succ` for a list of statements;
* `branchStep` and `parseBranches_succ`, `parseConditional_succ` for conditionals;
* `CommandDraft.step` and `parseCommand_succ` for commands;
* `closeBody_cases` for the two ends of a body.
-/

namespace Cookbook

/-! ### Cursors -/

namespace Cursor

variable (c : Cursor)

@[simp] theorem index_advance (n : Nat) : (c.advance n).index = c.index + n := rfl

@[simp] theorem rest_advance (n : Nat) : (c.advance n).rest = c.rest.drop n := rfl

@[simp] theorem index_next : c.next.index = c.index + 1 := rfl

@[simp] theorem rest_next : c.next.rest = c.rest.tail := by simp [next]

@[simp] theorem advance_zero : c.advance 0 = c := by simp [advance]

@[simp] theorem rest_skipSeparators :
    c.skipSeparators.rest = c.rest.dropWhile Token.isSeparator := by
  unfold skipSeparators
  rw [rest_advance]
  have h := List.takeWhile_append_dropWhile (p := Token.isSeparator) (l := c.rest)
  calc c.rest.drop (c.rest.takeWhile Token.isSeparator).length
      = (c.rest.takeWhile Token.isSeparator ++ c.rest.dropWhile Token.isSeparator).drop
          (c.rest.takeWhile Token.isSeparator).length := by rw [h]
    _ = c.rest.dropWhile Token.isSeparator := List.drop_left

theorem not_isSeparator_of_skipSeparators {t : Token} {rest : List Token}
    (h : c.skipSeparators.rest = t :: rest) : t.isSeparator = false := by
  rw [rest_skipSeparators] at h
  have := List.head?_dropWhile_not Token.isSeparator c.rest
  rw [h] at this
  simpa using this

@[simp] theorem skipSeparators_skipSeparators :
    c.skipSeparators.skipSeparators = c.skipSeparators := by
  have h : c.skipSeparators.rest.takeWhile Token.isSeparator = [] := by
    cases hrest : c.skipSeparators.rest with
    | nil => rfl
    | cons t rest => simp [c.not_isSeparator_of_skipSeparators hrest]
  rw [skipSeparators.eq_1 c.skipSeparators, h]
  exact c.skipSeparators.advance_zero

theorem skipSeparators_of_not {t : Token} {rest : List Token} (hrest : c.rest = t :: rest)
    (ht : t.isSeparator = false) : c.skipSeparators = c := by
  unfold skipSeparators
  rw [hrest, List.takeWhile_cons_of_neg (by simp [ht])]
  exact c.advance_zero

theorem skipSeparators_separators {seps : List Token} (tokens : List Token)
    (hseps : ∀ sep ∈ seps, sep.isSeparator = true)
    (htokens : tokens.head?.any Token.isSeparator = false) (i : Nat) :
    (⟨i, seps ++ tokens⟩ : Cursor).skipSeparators = ⟨i + seps.length, tokens⟩ := by
  have hnil : tokens.takeWhile Token.isSeparator = [] := by
    cases tokens with
    | nil => rfl
    | cons t tokens => simp [show t.isSeparator = false from htokens]
  unfold Cursor.skipSeparators
  rw [List.takeWhile_append_of_pos hseps, hnil]
  simp [Cursor.advance]

end Cursor

/-! ### Lines -/

/-- What a line does with a token: it ends before it, ends with it, passes over it, or takes it. -/
inductive LineStep where
  | stop
  | close
  | skip
  | take

def lineStep (stopAtDo : Bool) (last : Option Token) (depth : Nat) (t : Token) : LineStep :=
  if depth = 0 ∧ t.isSeparator then if last.any Token.continuesLine then .skip else .stop
  else if depth = 0 ∧ (t.isKeyword ["then"] ∨ (stopAtDo ∧ t.isKeyword ["do"])) then .close
  else if t.isNewline then .skip
  else .take

/-- The number of open brackets of a line after a token; a closer too many does not count. -/
def lineDepth (depth : Nat) (t : Token) : Nat :=
  if t.isOpener then depth + 1 else if t.isCloser then depth - 1 else depth

theorem Token.not_isPunct_of_isNewline {t : Token} (h : t.isNewline = true) (values : List Text) :
    t.isPunct values = false := by
  have hc : t.content = .newline := by simpa [Token.isNewline] using h
  simp [Token.isPunct, Token.isOneOf, hc]

theorem Token.not_isNewline_of_not_isSeparator {t : Token} (h : t.isSeparator = false) :
    t.isNewline = false := by
  simp only [Token.isSeparator, Bool.or_eq_false_iff] at h
  exact h.1

theorem lineDepth_of_isNewline {t : Token} (h : t.isNewline = true) (depth : Nat) :
    lineDepth depth t = depth := by
  simp [lineDepth, Token.isOpener, Token.isCloser, Token.not_isPunct_of_isNewline h]

theorem lineRun_cons (stopAtDo : Bool) (last : Option Token) (depth : Nat) (t : Token)
    (rest : List Token) :
    lineRun stopAtDo last depth (t :: rest) =
      match lineStep stopAtDo last depth t with
      | .stop => ([], 0)
      | .close => ([], 1)
      | .skip =>
        let line := lineRun stopAtDo last depth rest
        (line.1, line.2 + 1)
      | .take =>
        let line := lineRun stopAtDo (some t) (lineDepth depth t) rest
        (t :: line.1, line.2 + 1) := by
  rw [lineRun]
  unfold lineStep
  split
  · split <;> rfl
  · split
    · rfl
    · show (if t.isNewline then _ else _) = _
      split
      · rename_i h
        have := lineDepth_of_isNewline h depth
        unfold lineDepth at this
        simp only [this]
      · rfl

/-- What a line takes is among the tokens it passes. -/
theorem lineRun_subset_take (stopAtDo : Bool) (last : Option Token) (depth : Nat)
    (tokens : List Token) :
    (lineRun stopAtDo last depth tokens).1 ⊆ tokens.take (lineRun stopAtDo last depth tokens).2 := by
  induction tokens generalizing last depth with
  | nil => exact List.Subset.refl _
  | cons t rest ih =>
    rw [lineRun_cons]
    cases lineStep stopAtDo last depth t with
    | stop => exact List.nil_subset _
    | close => exact List.nil_subset _
    | skip => exact List.Subset.trans (ih last depth) (List.subset_cons_self _ _)
    | take => exact List.cons_subset_cons t (ih (some t) (lineDepth depth t))

/-! ### Lists of statements -/

/-- A result with more problems in front. -/
def Parsed.after {α : Type} (problems : List Problem) (p : Parsed α) : Parsed α :=
  { p with problems := problems ++ p.problems }

@[simp] theorem Parsed.value_after {α : Type} (problems : List Problem) (p : Parsed α) :
    (p.after problems).value = p.value := rfl

@[simp] theorem Parsed.cursor_after {α : Type} (problems : List Problem) (p : Parsed α) :
    (p.after problems).cursor = p.cursor := rfl

@[simp] theorem Parsed.problems_after {α : Type} (problems : List Problem) (p : Parsed α) :
    (p.after problems).problems = problems ++ p.problems := rfl

/-- What a list of statements does with the tokens ahead, separators passed: it ends, reports a closer
that closes nothing, passes over a word, or takes a statement. -/
inductive ListStep where
  | done
  | stray (t : Token)
  | pass
  | statement (t : Token)

/-- The step of a list of statements with the given tokens ahead. -/
def listStep (stop : Token → Bool) : List Token → ListStep
  | [] => .done
  | t :: _ =>
    if stop t then .done
    else if t.isKeyword ["end", "elsif", "when"] || t.isCloser then .stray t
    else if t.isKeyword ["else", "rescue", "ensure", "then"] then .pass
    else .statement t

/-- A list of statements with fuel left is what its step asks for. -/
theorem parseStatements_succ (src : TokenSource) (fuel : Nat) (stop : Token → Bool) (c : Cursor) :
    parseStatements src (fuel + 1) stop c =
      match listStep stop c.skipSeparators.rest with
      | .done => ⟨[], c.skipSeparators, []⟩
      | .stray t =>
        (parseStatements src fuel stop c.skipSeparators.next).after [⟨.strayCloser t.text, t.start⟩]
      | .pass => parseStatements src fuel stop c.skipSeparators.next
      | .statement t =>
        let first := parseStatement src fuel t c.skipSeparators
        let more := parseStatements src fuel stop first.cursor
        ⟨first.value :: more.value, more.cursor, first.problems ++ more.problems⟩ := by
  rw [parseStatements]
  dsimp only
  cases c.skipSeparators.rest with
  | nil => rfl
  | cons t rest =>
    unfold listStep
    dsimp only
    split
    · rfl
    · split
      · rfl
      · split <;> rfl

theorem parseStatements_skipSeparators (src : TokenSource) (fuel : Nat) (stop : Token → Bool)
    (c : Cursor) :
    parseStatements src (fuel + 1) stop c.skipSeparators = parseStatements src (fuel + 1) stop c := by
  rw [parseStatements_succ, parseStatements_succ, c.skipSeparators_skipSeparators]

/-- What is taken as a statement starts with no closer and with no word that is passed over. -/
theorem listStep_statement {stop : Token → Bool} {tokens : List Token} {t : Token}
    (h : listStep stop tokens = .statement t) :
    (∃ rest, tokens = t :: rest) ∧
      ¬(t.isKeyword ["end", "elsif", "when"] || t.isCloser) = true ∧
      ¬t.isKeyword ["else", "rescue", "ensure", "then"] = true := by
  unfold listStep at h
  split at h
  · exact absurd h ListStep.noConfusion
  · split at h
    · exact absurd h ListStep.noConfusion
    · split at h
      · exact absurd h ListStep.noConfusion
      · split at h
        · exact absurd h ListStep.noConfusion
        · injection h with h
          subst h
          exact ⟨⟨_, rfl⟩, ‹_›, ‹_›⟩

theorem listStep_ne_done {stop : Token → Bool} {tokens : List Token} {step : ListStep}
    (h : listStep stop tokens = step) (hne : step ≠ .done) : ∃ t rest, tokens = t :: rest := by
  cases tokens with
  | nil => exact absurd h.symm hne
  | cons t rest => exact ⟨t, rest, rfl⟩

theorem listStep_done {stop : Token → Bool} {t : Token} {rest : List Token}
    (h : listStep stop (t :: rest) = .done) : stop t = true := by
  unfold listStep at h
  dsimp only at h
  split at h
  · assumption
  · split at h
    · exact absurd h ListStep.noConfusion
    · split at h <;> exact absurd h ListStep.noConfusion

theorem listStep_pass {stop : Token → Bool} {tokens : List Token} (h : listStep stop tokens = .pass) :
    ∃ t rest, tokens = t :: rest ∧ t.isKeyword ["else", "rescue", "ensure", "then"] = true := by
  unfold listStep at h
  split at h
  · exact absurd h ListStep.noConfusion
  · split at h
    · exact absurd h ListStep.noConfusion
    · split at h
      · exact absurd h ListStep.noConfusion
      · split at h
        · exact ⟨_, _, rfl, ‹_›⟩
        · exact absurd h ListStep.noConfusion

theorem rest_of_listStep_done {tokens : List Token} (h : listStep (fun _ => false) tokens = .done) :
    tokens = [] := by
  cases tokens with
  | nil => rfl
  | cons t rest => exact absurd (listStep_done h) Bool.false_ne_true

/-! ### Commands -/

def BlockKind.opens (kind : BlockKind) (t : Token) : Bool :=
  match kind with
  | doEnd => t.isKeyword ["do"]
  | brace => t.isPunct ["\x7b"]

/-- What a command does with the tokens ahead: it ends, passes over a separator, takes a block, takes
a conditional or a compound statement as a value, takes a modifier, or takes the next token. -/
inductive CommandStep where
  | done
  | skip
  | block (t : Token) (kind : BlockKind)
  | conditional (t : Token)
  | compound (t : Token)
  | modifier (t : Token)
  | push (t : Token)

def CommandDraft.step (d : CommandDraft) : List Token → CommandStep
  | [] => .done
  | t :: rest =>
    if t.isSeparator then if d.continuesPast t rest then .skip else .done
    else if d.endsBefore t then .done
    else match d.blockKind? t with
      | some kind => .block t kind
      | none =>
        if t.isKeyword ["if", "unless", "case", "begin", "while", "until"] then
          if d.opensValue t then
            if t.isKeyword ["if", "unless", "case"] then .conditional t else .compound t
          else if d.openers.isEmpty && !d.head.isEmpty then .modifier t
          else .push t
        else .push t

def CommandStep.token? : CommandStep → Option Token
  | done => none
  | skip => none
  | block t _ => some t
  | conditional t => some t
  | compound t => some t
  | modifier t => some t
  | push t => some t

/-- The step of a draft at a token that is no separator. -/
theorem CommandDraft.step_of_not_isSeparator (d : CommandDraft) {t : Token}
    (h : t.isSeparator = false) (rest : List Token) :
    d.step (t :: rest) = .done ∨
      (d.step (t :: rest)).token? = some t ∧ d.step (t :: rest) ≠ .skip := by
  have hstep : d.step (t :: rest) =
      if d.endsBefore t then .done
      else match d.blockKind? t with
        | some kind => .block t kind
        | none =>
          if t.isKeyword ["if", "unless", "case", "begin", "while", "until"] then
            if d.opensValue t then
              if t.isKeyword ["if", "unless", "case"] then .conditional t else .compound t
            else if d.openers.isEmpty && !d.head.isEmpty then .modifier t
            else .push t
          else .push t := by
    simp [CommandDraft.step, h]
  rw [hstep]
  split
  · exact .inl rfl
  · right
    split
    · simp [CommandStep.token?]
    · split
      · split
        · split <;> simp [CommandStep.token?]
        · split <;> simp [CommandStep.token?]
      · simp [CommandStep.token?]

theorem CommandDraft.step_of_isSeparator (d : CommandDraft) {t : Token} (h : t.isSeparator = true)
    (rest : List Token) :
    d.step (t :: rest) = if d.continuesPast t rest then .skip else .done := by
  simp [CommandDraft.step, h]

/-- A step takes the next token, which is then no separator. -/
theorem CommandDraft.step_token {d : CommandDraft} {tokens : List Token} {t : Token}
    (h : (d.step tokens).token? = some t) :
    (∃ rest, tokens = t :: rest) ∧ t.isSeparator = false := by
  cases tokens with
  | nil => exact absurd h (by simp [CommandDraft.step, CommandStep.token?])
  | cons u rest =>
    cases hsep : u.isSeparator with
    | true =>
      rw [d.step_of_isSeparator hsep] at h
      split at h <;> exact absurd h (by simp [CommandStep.token?])
    | false =>
      rcases d.step_of_not_isSeparator hsep rest with hdone | ⟨htoken, -⟩
      · rw [hdone] at h
        exact absurd h (by simp [CommandStep.token?])
      · obtain rfl : u = t := by simpa using htoken.symm.trans h
        exact ⟨⟨rest, rfl⟩, hsep⟩

theorem CommandDraft.step_skip {d : CommandDraft} {tokens : List Token} (h : d.step tokens = .skip) :
    ∃ t rest, tokens = t :: rest ∧ t.isSeparator = true ∧ d.continuesPast t rest = true := by
  cases tokens with
  | nil => exact absurd h CommandStep.noConfusion
  | cons t rest =>
    cases hsep : t.isSeparator with
    | true =>
      rw [d.step_of_isSeparator hsep] at h
      split at h
      · rename_i hpast
        exact ⟨t, rest, rfl, hsep, hpast⟩
      · exact absurd h CommandStep.noConfusion
    | false =>
      rcases d.step_of_not_isSeparator hsep rest with hdone | ⟨-, hskip⟩
      · exact absurd (hdone.symm.trans h) CommandStep.noConfusion
      · exact absurd h hskip

namespace CommandDraft

/-- The draft with the tokens of a value that spans statements, up to the given index. -/
def addRun (d : CommandDraft) (c : Cursor) (index : Nat) : CommandDraft :=
  { d with head := ((c.rest.take (index - c.index)).filter (!·.isNewline)).reverse ++ d.head }

def build (d : CommandDraft) (first : Token) (start : Nat) : Command :=
  ⟨⟨first.start, d.stop first, start⟩, d.head.reverse, d.block, d.innerBlocks.reverse, d.modifier⟩

/-- The draft with its head cut before the token at an index. -/
def cutHead (src : TokenSource) (d : CommandDraft) (index : Nat) : CommandDraft :=
  { d with
    head := match src.tokens[index]? with
      | some t => d.head.dropWhile fun u => t.start ≤ u.start
      | none => d.head }

theorem finish_nil (src : TokenSource) {d : CommandDraft} (first : Token) (start : Nat) (c : Cursor)
    (h : d.openers = []) : d.finish src first start c = ⟨d.build first start, c, []⟩ := by
  unfold finish
  rw [h]
  rfl

theorem finish_cons (src : TokenSource) {d : CommandDraft} {unclosed : Token} {more : List Token}
    (first : Token) (start : Nat) (c : Cursor) (h : d.openers = unclosed :: more) :
    d.finish src first start c =
      let index := src.resyncToken unclosed (start + 1)
      ⟨(d.cutHead src index).build first start, src.cursor (max index (start + 1)),
        [⟨.openBracket unclosed.text, unclosed.start⟩]⟩ := by
  unfold finish
  split
  · rename_i hnil
    exact absurd (hnil.symm.trans h) (List.cons_ne_nil _ _).symm
  · rename_i u rest hcons
    obtain ⟨rfl, -⟩ := List.cons.inj (hcons.symm.trans h)
    rfl

theorem openers_addBlock (d : CommandDraft) (b : Block) : (d.addBlock b).openers = d.openers := by
  unfold addBlock
  split <;> rfl

theorem modifier_addBlock (d : CommandDraft) (b : Block) : (d.addBlock b).modifier = d.modifier := by
  unfold addBlock
  split <;> rfl

def addModifier (d : CommandDraft) (t : Token) (condition : List Token) : CommandDraft :=
  { d with modifier := some ⟨modifierWord t, condition, t.start⟩ }

end CommandDraft

/-- The rest of a command after a block: it goes on when the block was closed, and else ends. -/
def parseAfterBlock (src : TokenSource) (fuel : Nat) (first : Token) (start : Nat) (d : CommandDraft)
    (block : Parsed Block) : Parsed Command :=
  match block.value.closer with
  | some _ =>
    (parseCommand src fuel first start (d.addBlock block.value) block.cursor).after block.problems
  | none => ((d.addBlock block.value).finish src first start block.cursor).after block.problems

/-- A command with fuel left is what its step asks for. -/
theorem parseCommand_succ (src : TokenSource) (fuel : Nat) (first : Token) (start : Nat)
    (d : CommandDraft) (c : Cursor) :
    parseCommand src (fuel + 1) first start d c =
      match d.step c.rest with
      | .done => d.finish src first start c
      | .skip => parseCommand src fuel first start d c.next
      | .block t kind => parseAfterBlock src fuel first start d (parseBlock src fuel t kind c)
      | .conditional t =>
        let nested := parseConditional src fuel t c
        (parseCommand src fuel first start (d.addRun c nested.cursor.index) nested.cursor).after
          nested.problems
      | .compound t =>
        let nested := parseCompound src fuel t c
        (parseCommand src fuel first start (d.addRun c nested.cursor.index) nested.cursor).after
          nested.problems
      | .modifier t =>
        (d.addModifier t (c.next.line false).1).finish src first start (c.next.line false).2
      | .push t => parseCommand src fuel first start (d.push t) c.next := by
  rw [parseCommand]
  cases hrest : c.rest with
  | nil => rfl
  | cons t rest =>
    unfold CommandDraft.step
    dsimp only
    split
    · split <;> rfl
    · split
      · rfl
      · cases hkind : d.blockKind? t with
        | some kind =>
          simp only [parseAfterBlock]
          cases (parseBlock src fuel t kind c).value.closer <;> rfl
        | none =>
          dsimp only
          split
          · split
            · split <;> simp only [CommandDraft.addRun, Parsed.after, hrest]
            · split <;> rfl
          · rfl

/-! ### Bodies -/

/-- A body ends in its closer, which is taken, or is cut where reading resumes. -/
theorem closeBody_cases (src : TokenSource) (isCloser : Token → Bool) (opener : Token) (fault : Fault)
    (p : Parsed (List Statement)) :
    (∃ t, p.cursor.rest.head? = some t ∧ isCloser t = true ∧
      closeBody src isCloser opener fault p = ⟨p.value, some t, p.cursor.next, p.problems⟩) ∨
    (p.cursor.rest.head?.filter isCloser = none ∧
      closeBody src isCloser opener fault p =
        ⟨(src.resync opener p.value).1, none,
          ((src.resync opener p.value).2.map src.cursor).getD p.cursor,
          p.problems ++ [⟨fault, opener.start⟩]⟩) := by
  unfold closeBody
  cases h : p.cursor.rest.head?.filter isCloser with
  | some t =>
    left
    obtain ⟨hhead, hcloses⟩ := Option.filter_eq_some_iff.1 h
    exact ⟨t, hhead, hcloses, rfl⟩
  | none =>
    right
    exact ⟨rfl, rfl⟩

theorem parseBlock_succ (src : TokenSource) (fuel : Nat) (opener : Token) (kind : BlockKind)
    (c : Cursor) :
    parseBlock src (fuel + 1) opener kind c =
      let b := closeBody src kind.closes opener kind.fault
        (parseStatements src fuel kind.closes c.next.params.2)
      ⟨⟨kind, opener, b.closer, c.next.params.1, b.body⟩, b.cursor, b.problems⟩ := by
  rw [parseBlock]

theorem parseCompound_succ (src : TokenSource) (fuel : Nat) (opener : Token) (c : Cursor) :
    parseCompound src (fuel + 1) opener c =
      let line := c.next.line (isLoopWord opener.text)
      let b := closeBody src (·.isKeyword ["end"]) opener (.openKeyword opener.text)
        (parseStatements src fuel (·.isKeyword ["end"]) line.2)
      ⟨⟨⟨opener.start, src.endBefore b.cursor.index opener.stop, c.index⟩, line.1, b.body, opener,
        b.closer⟩, b.cursor, b.problems⟩ := by
  rw [parseCompound]

/-! ### Conditionals -/

/-- What a conditional does with the tokens ahead, separators passed: it ends, takes a branch, or
takes its closer. -/
inductive BranchStep where
  | done
  | branch (word : BranchWord) (t : Token)
  | close (t : Token)

def branchStep (word : ConditionalWord) : List Token → BranchStep
  | [] => .done
  | t :: _ =>
    match branchWord? word t with
    | some branchWord => .branch branchWord t
    | none =>
      if t.isKeyword ["else"] then .branch .otherwise t
      else if t.isKeyword ["end"] then .close t
      else .done

theorem branchStep_ne_done {word : ConditionalWord} {tokens : List Token} {step : BranchStep}
    (h : branchStep word tokens = step) (hne : step ≠ .done) : ∃ t rest, tokens = t :: rest := by
  cases tokens with
  | nil => exact absurd h.symm hne
  | cons t rest => exact ⟨t, rest, rfl⟩

theorem branchStep_close {word : ConditionalWord} {tokens : List Token} {t : Token}
    (h : branchStep word tokens = .close t) :
    ∃ rest, tokens = t :: rest ∧ t.isKeyword ["end"] = true := by
  unfold branchStep at h
  split at h
  · exact absurd h BranchStep.noConfusion
  · split at h
    · exact absurd h BranchStep.noConfusion
    · split at h
      · exact absurd h BranchStep.noConfusion
      · split at h
        · rename_i hend
          injection h with h
          subst h
          exact ⟨_, rfl, hend⟩
        · exact absurd h BranchStep.noConfusion

theorem branchStep_branch {word : ConditionalWord} {tokens : List Token} {branchWord : BranchWord}
    {t : Token} (h : branchStep word tokens = .branch branchWord t) : ∃ rest, tokens = t :: rest := by
  unfold branchStep at h
  split at h
  · exact absurd h BranchStep.noConfusion
  · split at h
    · injection h with _ h
      exact ⟨_, by rw [h]⟩
    · split at h
      · injection h with _ h
        exact ⟨_, by rw [h]⟩
      · split at h <;> exact absurd h BranchStep.noConfusion

/-- The condition of a branch after its word, and the cursor after it. -/
def branchHead (branchWord : BranchWord) (c : Cursor) : List Token × Cursor :=
  if branchWord = .otherwise then ([], c) else c.line false

/-- Whether a token ends the body of a branch with the given word. -/
def branchStop (word : ConditionalWord) (branchWord : BranchWord) (t : Token) : Bool :=
  if branchWord = .otherwise then t.isKeyword ["end"] else endsBranch word t

/-- The branch whose word `t` stands before the cursor, and the branches after it. -/
def parseBranch (src : TokenSource) (fuel : Nat) (word : ConditionalWord) (branchWord : BranchWord)
    (t : Token) (c : Cursor) : Parsed (List Branch × Option Token) :=
  let head := branchHead branchWord c
  let body := parseStatements src fuel (branchStop word branchWord) head.2
  let more := parseBranches src fuel word body.cursor
  ⟨(⟨branchWord, head.1, body.value, t.start⟩ :: more.value.1, more.value.2), more.cursor,
    body.problems ++ more.problems⟩

theorem branchWord?_ne_otherwise {word : ConditionalWord} {t : Token} {branchWord : BranchWord}
    (h : branchWord? word t = some branchWord) : branchWord ≠ .otherwise := by
  rintro rfl
  unfold branchWord? at h
  split at h <;> split at h <;> simp at h

theorem parseBranches_succ (src : TokenSource) (fuel : Nat) (word : ConditionalWord) (c : Cursor) :
    parseBranches src (fuel + 1) word c =
      match branchStep word c.skipSeparators.rest with
      | .done => ⟨([], none), c.skipSeparators, []⟩
      | .branch branchWord t => parseBranch src fuel word branchWord t c.skipSeparators.next
      | .close t => ⟨([], some t), c.skipSeparators.next, []⟩ := by
  rw [parseBranches]
  dsimp only
  cases c.skipSeparators.rest with
  | nil => rfl
  | cons t rest =>
    unfold branchStep
    dsimp only
    cases h : branchWord? word t with
    | some branchWord =>
      have hne := branchWord?_ne_otherwise h
      have hstop : branchStop word branchWord = endsBranch word := by
        funext u
        simp [branchStop, hne]
      simp [parseBranch, branchHead, hne, hstop]
    | none =>
      dsimp only
      split
      · rfl
      · split <;> rfl

/-- The word of the first branch of a conditional that is no `case`. -/
def firstBranchWord (word : ConditionalWord) : BranchWord :=
  if word = .unlessTrue then .unlessTrue else .ifTrue

/-- The branches of a conditional whose word stands before the cursor, and its closer. -/
def parseAllBranches (src : TokenSource) (fuel : Nat) (opener : Token) (c : Cursor) :
    Parsed (List Branch × Option Token) :=
  if conditionalWord opener = .caseOf then
    parseBranches src fuel .caseOf (c.line false).2.skipSeparators
  else
    parseBranch src fuel (conditionalWord opener) (firstBranchWord (conditionalWord opener)) opener c

/-- The conditional that starts at an index, with the given branches and closer, up to a cursor. -/
def buildConditional (src : TokenSource) (opener : Token) (start : Nat) (line : List Token)
    (branches : List Branch) (closer : Option Token) (c : Cursor) : Conditional :=
  ⟨⟨opener.start, src.endBefore c.index opener.stop, start⟩, conditionalWord opener,
    if conditionalWord opener = .caseOf then line else [], branches, opener, closer⟩

/-- The conditional of some branches; without a closer the last branch is cut where reading
resumes. -/
def closeConditional (src : TokenSource) (opener : Token) (start : Nat) (line : List Token)
    (read : Parsed (List Branch × Option Token)) : Parsed Conditional :=
  match read.value.2 with
  | some t =>
    ⟨buildConditional src opener start line read.value.1 (some t) read.cursor, read.cursor,
      read.problems⟩
  | none =>
    let cut := resyncBranches src opener read.value.1
    let c := (cut.2.map src.cursor).getD read.cursor
    ⟨buildConditional src opener start line cut.1 none c, c,
      read.problems ++ [⟨.openKeyword opener.text, opener.start⟩]⟩

theorem parseConditional_succ (src : TokenSource) (fuel : Nat) (opener : Token) (c : Cursor) :
    parseConditional src (fuel + 1) opener c =
      closeConditional src opener c.index (c.next.line false).1
        (parseAllBranches src fuel opener c.next) := by
  have hstop : ∀ word, branchStop word (firstBranchWord word) = endsBranch word := by
    intro word
    funext t
    cases word <;> rfl
  rw [parseConditional]
  unfold closeConditional buildConditional parseAllBranches parseBranch
  rw [hstop]
  cases conditionalWord opener with
  | caseOf =>
    dsimp only
    split <;> rename_i h <;> simp [h]
  | ifTrue =>
    dsimp only
    split <;> rename_i h <;> simp [h, firstBranchWord, branchHead]
  | unlessTrue =>
    dsimp only
    split <;> rename_i h <;> simp [h, firstBranchWord, branchHead]

/-! ### Statements -/

def Parsed.map {α β : Type} (f : α → β) (p : Parsed α) : Parsed β := ⟨f p.value, p.cursor, p.problems⟩

/-- A statement with fuel left is of the kind that its first token says. -/
theorem parseStatement_succ (src : TokenSource) (fuel : Nat) (t : Token) (c : Cursor) :
    parseStatement src (fuel + 1) t c =
      if t.isKeyword ["if", "unless", "case"] then
        (parseConditional src fuel t c).map .conditional
      else if t.isKeyword compoundWords then (parseCompound src fuel t c).map .compound
      else (parseCommand src fuel t c.index .empty c).map .command := by
  rw [parseStatement]
  rfl

end Cookbook
