import Cookbook.Proofs.Statement.Steps

/-!
The parser goes on. Reading resumes, after something was left open, at a statement that was read
before, so a call may end left of where an inner call ended; but it never ends left of where it
started, and a statement always ends right of its first token.

* `Progress src fuel` says for each call where it may end and where the statements it returns start;
* `progress` holds for every source and every amount of fuel;
* `parseStatement_lt` is the strict form, for calls that have fuel to take a token.
-/

namespace Cookbook

/-! ### Cursors of a source -/

namespace TokenSource

variable {src : TokenSource} {c : Cursor}

/-- The cursor has before it the tokens that its index says. -/
def Holds (src : TokenSource) (c : Cursor) : Prop := c.rest = src.tokens.drop c.index

theorem holds_cursor (src : TokenSource) (index : Nat) : src.Holds (src.cursor index) := rfl

theorem Holds.advance (h : src.Holds c) (n : Nat) : src.Holds (c.advance n) := by
  unfold Holds at h ⊢
  simp [h, List.drop_drop]

theorem Holds.next (h : src.Holds c) : src.Holds c.next := h.advance 1

theorem Holds.skipSeparators (h : src.Holds c) : src.Holds c.skipSeparators := h.advance _

theorem Holds.line (h : src.Holds c) (stopAtDo : Bool) : src.Holds (c.line stopAtDo).2 := h.advance _

theorem Holds.params (h : src.Holds c) : src.Holds c.params.2 := by
  unfold Cursor.params
  split
  · exact h
  · split
    · exact h.next
    · split
      · exact h.advance _
      · exact h

end TokenSource

theorem Cursor.le_index_skipSeparators (c : Cursor) : c.index ≤ c.skipSeparators.index :=
  Nat.le_add_right _ _

theorem Cursor.le_index_line (c : Cursor) (stopAtDo : Bool) : c.index ≤ (c.line stopAtDo).2.index :=
  Nat.le_add_right _ _

theorem Cursor.le_index_params (c : Cursor) : c.index ≤ c.params.2.index := by
  unfold Cursor.params
  split
  · exact le_rfl
  · split
    · simp
    · split
      · simp
      · exact le_rfl

theorem TokenSource.Holds.branchHead {src : TokenSource} {c : Cursor} (h : src.Holds c)
    (branchWord : BranchWord) : src.Holds (branchHead branchWord c).2 := by
  unfold Cookbook.branchHead
  split
  · exact h
  · exact h.line false

theorem Cursor.le_index_branchHead (c : Cursor) (branchWord : BranchWord) :
    c.index ≤ (branchHead branchWord c).2.index := by
  unfold branchHead
  split
  · exact le_rfl
  · exact c.le_index_line false

/-! ### Where results end -/

/-- The result ends on the source, at or after an index. -/
def Parsed.EndsFrom {α : Type} (src : TokenSource) (index : Nat) (p : Parsed α) : Prop :=
  src.Holds p.cursor ∧ index ≤ p.cursor.index

theorem Parsed.EndsFrom.mono {α : Type} {src : TokenSource} {i j : Nat} {p : Parsed α}
    (h : p.EndsFrom src j) (hij : i ≤ j) : p.EndsFrom src i := ⟨h.1, hij.trans h.2⟩

/-- All statements of a list start at or after an index. -/
def StartFrom (index : Nat) (body : List Statement) : Prop :=
  ∀ s ∈ body, index ≤ s.extent.firstIndex

theorem StartFrom.mono {i j : Nat} {body : List Statement} (h : StartFrom j body) (hij : i ≤ j) :
    StartFrom i body := fun s hs => hij.trans (h s hs)

/-- Where reading resumes is the start of a statement of the body. -/
theorem TokenSource.le_of_resync {src : TokenSource} {opener : Token} {body : List Statement}
    {i index : Nat} (h : StartFrom i body) (hr : (src.resync opener body).2 = some index) :
    i ≤ index := by
  obtain ⟨s, hs, rfl⟩ := Option.map_eq_some_iff.1 hr
  exact h s (List.mem_of_find?_eq_some hs)

theorem le_of_resyncBranches {src : TokenSource} {opener : Token} {branches : List Branch}
    {i index : Nat} (h : ∀ b ∈ branches, StartFrom i b.body)
    (hr : (resyncBranches src opener branches).2 = some index) : i ≤ index := by
  induction branches with
  | nil => simp [resyncBranches] at hr
  | cons b more ih =>
    cases more with
    | nil => exact TokenSource.le_of_resync (h b (by simp)) hr
    | cons b' more => exact ih (fun x hx => h x (by simp [hx])) hr

/-- A cut goes back no further than the body, and nowhere when nothing resumes. -/
theorem endsFrom_cut {src : TokenSource} {i : Nat} {index : Option Nat} {c : Cursor}
    (hc : src.Holds c) (hi : i ≤ c.index) (hcut : ∀ j, index = some j → i ≤ j) :
    src.Holds ((index.map src.cursor).getD c) ∧ i ≤ ((index.map src.cursor).getD c).index := by
  cases index with
  | none => exact ⟨hc, hi⟩
  | some j => exact ⟨src.holds_cursor j, hcut j rfl⟩

theorem closeBody_endsFrom {src : TokenSource} {isCloser : Token → Bool} {opener : Token}
    {fault : Fault} {p : Parsed (List Statement)} {i : Nat} (hp : p.EndsFrom src i)
    (hbody : StartFrom i p.value) :
    src.Holds (closeBody src isCloser opener fault p).cursor ∧
      i ≤ (closeBody src isCloser opener fault p).cursor.index := by
  rcases closeBody_cases src isCloser opener fault p with ⟨t, -, -, h⟩ | ⟨-, h⟩
  · rw [h]
    exact ⟨hp.1.next, hp.2.trans (Nat.le_succ _)⟩
  · rw [h]
    exact endsFrom_cut hp.1 hp.2 fun j hj => TokenSource.le_of_resync hbody hj

theorem closeConditional_endsFrom {src : TokenSource} {opener : Token} {start i : Nat}
    {line : List Token} {p : Parsed (List Branch × Option Token)} (hp : p.EndsFrom src i)
    (hbody : ∀ b ∈ p.value.1, StartFrom i b.body) :
    (closeConditional src opener start line p).EndsFrom src i := by
  unfold closeConditional
  split
  · exact hp
  · exact endsFrom_cut hp.1 hp.2 fun j hj => le_of_resyncBranches hbody hj

/-- A command ends where the cursor stands, or further left but right of where it starts. -/
theorem CommandDraft.finish_endsFrom {src : TokenSource} {first : Token} {start i : Nat}
    {c : Cursor} (d : CommandDraft) (hc : src.Holds c) (hi : i ≤ c.index) (hs : i ≤ start + 1) :
    (d.finish src first start c).EndsFrom src i := by
  unfold CommandDraft.finish
  split
  · exact ⟨hc, hi⟩
  · exact ⟨src.holds_cursor _, hs.trans (le_max_right _ _)⟩

@[simp] theorem CommandDraft.firstIndex_finish (src : TokenSource) (d : CommandDraft)
    (first : Token) (start : Nat) (c : Cursor) :
    (d.finish src first start c).value.extent.firstIndex = start := by
  unfold CommandDraft.finish
  split <;> rfl

/-! ### What each call keeps -/

/-- Where the calls with a given fuel end, and where the statements they return start. -/
structure Progress (src : TokenSource) (fuel : Nat) : Prop where
  statements : ∀ stop c, src.Holds c →
    (parseStatements src fuel stop c).EndsFrom src c.index ∧
      StartFrom c.index (parseStatements src fuel stop c).value
  statement : ∀ t c, src.Holds c →
    (parseStatement src fuel t c).EndsFrom src c.index ∧
      (parseStatement src fuel t c).value.extent.firstIndex = c.index
  block : ∀ opener kind c, src.Holds c → (parseBlock src fuel opener kind c).EndsFrom src (c.index + 1)
  branches : ∀ word c, src.Holds c →
    (parseBranches src fuel word c).EndsFrom src c.index ∧
      ∀ b ∈ (parseBranches src fuel word c).value.1, StartFrom c.index b.body
  conditional : ∀ opener c, src.Holds c →
    (parseConditional src fuel opener c).EndsFrom src (c.index + 1) ∧
      (parseConditional src fuel opener c).value.extent.firstIndex = c.index
  compound : ∀ opener c, src.Holds c →
    (parseCompound src fuel opener c).EndsFrom src (c.index + 1) ∧
      (parseCompound src fuel opener c).value.extent.firstIndex = c.index
  command : ∀ first start d c i, src.Holds c → i ≤ c.index → i ≤ start + 1 →
    (parseCommand src fuel first start d c).EndsFrom src i ∧
      (parseCommand src fuel first start d c).value.extent.firstIndex = start

namespace Progress

variable {src : TokenSource} {fuel : Nat}

theorem zero (src : TokenSource) : Progress src 0 where
  statements stop c hc := by
    rw [parseStatements]
    exact ⟨⟨hc, le_rfl⟩, by simp [StartFrom]⟩
  statement t c hc := by
    rw [parseStatement]
    exact ⟨⟨hc.next, Nat.le_succ _⟩, rfl⟩
  block opener kind c hc := by
    rw [parseBlock]
    exact ⟨hc.next, le_rfl⟩
  branches word c hc := by
    rw [parseBranches]
    exact ⟨⟨hc, le_rfl⟩, by simp⟩
  conditional opener c hc := by
    rw [parseConditional]
    exact ⟨⟨hc.next, le_rfl⟩, rfl⟩
  compound opener c hc := by
    rw [parseCompound]
    exact ⟨⟨hc.next, le_rfl⟩, rfl⟩
  command first start d c i hc hi hs := by
    rw [parseCommand]
    exact ⟨d.finish_endsFrom hc hi hs, by simp⟩

section Succ

variable (ih : Progress src fuel)

include ih

theorem statements_succ (stop : Token → Bool) (c : Cursor) (hc : src.Holds c) :
    (parseStatements src (fuel + 1) stop c).EndsFrom src c.index ∧
      StartFrom c.index (parseStatements src (fuel + 1) stop c).value := by
  have hs := hc.skipSeparators
  have hle := c.le_index_skipSeparators
  have hmore : ∀ c' : Cursor, src.Holds c' → c.index ≤ c'.index →
      (parseStatements src fuel stop c').EndsFrom src c.index ∧
        StartFrom c.index (parseStatements src fuel stop c').value := by
    intro c' hc' hle'
    obtain ⟨hend, hstart⟩ := ih.statements stop c' hc'
    exact ⟨hend.mono hle', hstart.mono hle'⟩
  have hnext := hmore c.skipSeparators.next hs.next (hle.trans (Nat.le_succ _))
  rw [parseStatements_succ]
  cases listStep stop c.skipSeparators.rest with
  | done => exact ⟨⟨hs, hle⟩, by simp [StartFrom]⟩
  | stray t => exact hnext
  | pass => exact hnext
  | statement t =>
    obtain ⟨hend, hfirst⟩ := ih.statement t c.skipSeparators hs
    obtain ⟨hend', hstart'⟩ := hmore _ hend.1 (hle.trans hend.2)
    refine ⟨hend', ?_⟩
    intro s hs'
    rcases List.mem_cons.1 hs' with rfl | hs'
    · rw [hfirst]
      exact hle
    · exact hstart' s hs'

theorem statement_succ (t : Token) (c : Cursor) (hc : src.Holds c) :
    (parseStatement src (fuel + 1) t c).EndsFrom src c.index ∧
      (parseStatement src (fuel + 1) t c).value.extent.firstIndex = c.index := by
  rw [parseStatement_succ]
  split
  · obtain ⟨hend, hfirst⟩ := ih.conditional t c hc
    exact ⟨hend.mono (Nat.le_succ _), hfirst⟩
  · split
    · obtain ⟨hend, hfirst⟩ := ih.compound t c hc
      exact ⟨hend.mono (Nat.le_succ _), hfirst⟩
    · exact ih.command t c.index .empty c c.index hc le_rfl (Nat.le_succ _)

theorem block_succ (opener : Token) (kind : BlockKind) (c : Cursor) (hc : src.Holds c) :
    (parseBlock src (fuel + 1) opener kind c).EndsFrom src (c.index + 1) := by
  rw [parseBlock_succ]
  obtain ⟨hend, hstart⟩ := ih.statements kind.closes c.next.params.2 hc.next.params
  have hle := c.next.le_index_params
  exact closeBody_endsFrom (hend.mono hle) (hstart.mono hle)

theorem branch_succ (word : ConditionalWord) (branchWord : BranchWord) (t : Token) (c : Cursor)
    (hc : src.Holds c) :
    (parseBranch src fuel word branchWord t c).EndsFrom src c.index ∧
      ∀ b ∈ (parseBranch src fuel word branchWord t c).value.1, StartFrom c.index b.body := by
  have hle := c.le_index_branchHead branchWord
  obtain ⟨hend, hstart⟩ := ih.statements (branchStop word branchWord) _ (hc.branchHead branchWord)
  obtain ⟨hend', hstart'⟩ := ih.branches word _ hend.1
  have hle' := hle.trans hend.2
  refine ⟨hend'.mono hle', ?_⟩
  intro b hb
  rcases List.mem_cons.1 hb with rfl | hb
  · exact hstart.mono hle
  · exact (hstart' b hb).mono hle'

theorem branches_succ (word : ConditionalWord) (c : Cursor) (hc : src.Holds c) :
    (parseBranches src (fuel + 1) word c).EndsFrom src c.index ∧
      ∀ b ∈ (parseBranches src (fuel + 1) word c).value.1, StartFrom c.index b.body := by
  have hs := hc.skipSeparators
  have hle := c.le_index_skipSeparators
  have hle' : c.index ≤ c.skipSeparators.next.index := hle.trans (Nat.le_succ _)
  rw [parseBranches_succ]
  cases branchStep word c.skipSeparators.rest with
  | done => exact ⟨⟨hs, hle⟩, by simp⟩
  | close t => exact ⟨⟨hs.next, hle'⟩, by simp⟩
  | branch branchWord t =>
    obtain ⟨hend, hstart⟩ := ih.branch_succ word branchWord t _ hs.next
    exact ⟨hend.mono hle', fun b hb => (hstart b hb).mono hle'⟩

theorem allBranches_succ (opener : Token) (c : Cursor) (hc : src.Holds c) :
    (parseAllBranches src fuel opener c).EndsFrom src c.index ∧
      ∀ b ∈ (parseAllBranches src fuel opener c).value.1, StartFrom c.index b.body := by
  unfold parseAllBranches
  split
  · have hle := (c.le_index_line false).trans (c.line false).2.le_index_skipSeparators
    obtain ⟨hend, hstart⟩ := ih.branches .caseOf _ (hc.line false).skipSeparators
    exact ⟨hend.mono hle, fun b hb => (hstart b hb).mono hle⟩
  · exact ih.branch_succ _ _ opener c hc

theorem conditional_succ (opener : Token) (c : Cursor) (hc : src.Holds c) :
    (parseConditional src (fuel + 1) opener c).EndsFrom src (c.index + 1) ∧
      (parseConditional src (fuel + 1) opener c).value.extent.firstIndex = c.index := by
  rw [parseConditional_succ]
  obtain ⟨hend, hstart⟩ := ih.allBranches_succ opener _ hc.next
  refine ⟨closeConditional_endsFrom hend hstart, ?_⟩
  unfold closeConditional
  split <;> rfl

theorem compound_succ (opener : Token) (c : Cursor) (hc : src.Holds c) :
    (parseCompound src (fuel + 1) opener c).EndsFrom src (c.index + 1) ∧
      (parseCompound src (fuel + 1) opener c).value.extent.firstIndex = c.index := by
  rw [parseCompound_succ]
  have hline := hc.next.line (isLoopWord opener.text)
  obtain ⟨hend, hstart⟩ := ih.statements (·.isKeyword ["end"]) _ hline
  have hle : c.index + 1 ≤ (c.next.line (isLoopWord opener.text)).2.index :=
    c.next.le_index_line _
  exact ⟨closeBody_endsFrom (hend.mono hle) (hstart.mono hle), rfl⟩

theorem command_succ (first : Token) (start : Nat) (d : CommandDraft) (c : Cursor) (i : Nat)
    (hc : src.Holds c) (hi : i ≤ c.index) (hs : i ≤ start + 1) :
    (parseCommand src (fuel + 1) first start d c).EndsFrom src i ∧
      (parseCommand src (fuel + 1) first start d c).value.extent.firstIndex = start := by
  have hnext := Nat.le_succ_of_le hi
  rw [parseCommand_succ]
  cases d.step c.rest with
  | done => exact ⟨d.finish_endsFrom hc hi hs, by simp⟩
  | skip => exact ih.command first start d c.next i hc.next hnext hs
  | push t => exact ih.command first start (d.push t) c.next i hc.next hnext hs
  | modifier t =>
    have hle := hnext.trans (c.next.le_index_line false)
    exact ⟨CommandDraft.finish_endsFrom _ (hc.next.line false) hle hs, by simp⟩
  | conditional t =>
    obtain ⟨hend, -⟩ := ih.conditional t c hc
    exact ih.command first start _ _ i hend.1 (hnext.trans hend.2) hs
  | compound t =>
    obtain ⟨hend, -⟩ := ih.compound t c hc
    exact ih.command first start _ _ i hend.1 (hnext.trans hend.2) hs
  | block t kind =>
    have hend := ih.block t kind c hc
    dsimp only
    unfold parseAfterBlock
    split
    · exact ih.command first start _ _ i hend.1 (hnext.trans hend.2) hs
    · exact ⟨CommandDraft.finish_endsFrom _ hend.1 (hnext.trans hend.2) hs, by simp⟩

end Succ

end Progress

/-- Every call ends at or right of where it starts, whatever its fuel. -/
theorem progress (src : TokenSource) (fuel : Nat) : Progress src fuel := by
  induction fuel with
  | zero => exact .zero src
  | succ fuel ih =>
    exact ⟨ih.statements_succ, ih.statement_succ, ih.block_succ, ih.branches_succ,
      ih.conditional_succ, ih.compound_succ, ih.command_succ⟩

/-! ### The strict form -/

theorem Token.isOneOf_iff {t : Token} {kind : NameKind} {values : List Text} :
    t.isOneOf kind values = true ↔ ∃ v ∈ values, t.content = .name kind v := by
  unfold Token.isOneOf
  split
  · rename_i k v h
    rw [h]
    constructor
    · intro hk
      simp only [Bool.and_eq_true, beq_iff_eq, List.contains_eq_mem, decide_eq_true_eq] at hk
      exact ⟨v, hk.2, by rw [hk.1]⟩
    · rintro ⟨w, hw, he⟩
      injection he with hk hv
      subst hk hv
      simpa using hw
  · rename_i h
    simp only [Bool.false_eq_true, false_iff, not_exists, not_and]
    intro v _ he
    exact h kind v he

theorem Token.isPunct_of_content {t : Token} {mark : Text} (h : t.content = .name .punct mark) :
    t.isPunct [mark] = true :=
  Token.isOneOf_iff.2 ⟨mark, List.mem_singleton_self _, h⟩

theorem Token.isOneOf_of_subset {t : Token} {kind : NameKind} {values values' : List Text}
    (h : t.isOneOf kind values = true) (hsub : values ⊆ values') : t.isOneOf kind values' = true := by
  obtain ⟨v, hv, hcontent⟩ := Token.isOneOf_iff.1 h
  exact Token.isOneOf_iff.2 ⟨v, hsub hv, hcontent⟩

/-- Whether a token may be the first of a statement: it separates nothing and ends nothing. -/
def Token.startsStatement (t : Token) : Bool :=
  !t.isSeparator &&
    !(t.isKeyword ["end", "elsif", "else", "when", "rescue", "ensure"] || t.isCloser)

theorem Token.startsStatement_of_not {t : Token} (hsep : t.isSeparator = false)
    (hstray : ¬(t.isKeyword ["end", "elsif", "when"] || t.isCloser) = true)
    (hword : ¬t.isKeyword ["else", "rescue", "ensure", "then"] = true) :
    t.startsStatement = true := by
  unfold Token.startsStatement
  rw [hsep]
  simp only [Bool.or_eq_true, not_or, Bool.not_eq_true] at hstray
  rw [hstray.2]
  simp only [Bool.not_false, Bool.or_false, Bool.true_and, Bool.not_eq_true']
  rw [Bool.eq_false_iff]
  intro h
  obtain ⟨v, hv, hcontent⟩ := Token.isOneOf_iff.1 h
  have hstray' := hstray.1
  rw [Bool.eq_false_iff] at hstray'
  simp only [List.mem_cons, List.not_mem_nil, or_false] at hv
  rcases hv with rfl | rfl | rfl | rfl | rfl | rfl
  · exact hstray' (Token.isOneOf_iff.2 ⟨_, by simp, hcontent⟩)
  · exact hstray' (Token.isOneOf_iff.2 ⟨_, by simp, hcontent⟩)
  · exact hword (Token.isOneOf_iff.2 ⟨_, by simp, hcontent⟩)
  · exact hstray' (Token.isOneOf_iff.2 ⟨_, by simp, hcontent⟩)
  · exact hword (Token.isOneOf_iff.2 ⟨_, by simp, hcontent⟩)
  · exact hword (Token.isOneOf_iff.2 ⟨_, by simp, hcontent⟩)

theorem Cursor.startsStatement_of_listStep {stop : Token → Bool} {t : Token} (c : Cursor)
    (h : listStep stop c.skipSeparators.rest = .statement t) :
    ∃ rest, c.skipSeparators.rest = t :: rest ∧ t.startsStatement = true := by
  obtain ⟨⟨rest, hrest⟩, hstray, hword⟩ := listStep_statement h
  exact ⟨rest, hrest, Token.startsStatement_of_not
    (c.not_isSeparator_of_skipSeparators hrest) hstray hword⟩

theorem CommandDraft.step_empty {t : Token} (ht : t.startsStatement = true) (rest : List Token) :
    (∃ kind, CommandDraft.empty.step (t :: rest) = .block t kind) ∨
      CommandDraft.empty.step (t :: rest) = .conditional t ∨
      CommandDraft.empty.step (t :: rest) = .compound t ∨
      CommandDraft.empty.step (t :: rest) = .push t := by
  simp only [Token.startsStatement, Bool.and_eq_true, Bool.not_eq_true'] at ht
  have hends : CommandDraft.empty.endsBefore t = false := by
    simp [CommandDraft.endsBefore, ht.2]
  have hhead : (CommandDraft.empty.openers.isEmpty && !CommandDraft.empty.head.isEmpty) = false := rfl
  simp only [CommandDraft.step, ht.1, hends, hhead, Bool.false_eq_true, if_false]
  cases CommandDraft.empty.blockKind? t with
  | some kind => exact Or.inl ⟨kind, rfl⟩
  | none =>
    dsimp only
    split
    · split
      · split
        · exact Or.inr (Or.inl rfl)
        · exact Or.inr (Or.inr (Or.inl rfl))
      · exact Or.inr (Or.inr (Or.inr rfl))
    · exact Or.inr (Or.inr (Or.inr rfl))

/-- A statement that has fuel to take its first token ends right of it. -/
theorem parseStatement_lt {src : TokenSource} {c : Cursor} {t : Token} (fuel : Nat)
    (hc : src.Holds c) (hhead : c.rest.head? = some t) (ht : t.startsStatement = true) :
    c.index < (parseStatement src (fuel + 2) t c).cursor.index := by
  have hp := progress src fuel
  have hp' := progress src (fuel + 1)
  rw [parseStatement_succ]
  split
  · exact (hp'.conditional t c hc).1.2
  · split
    · exact (hp'.compound t c hc).1.2
    · obtain ⟨rest, hrest⟩ : ∃ rest, c.rest = t :: rest := List.head?_eq_some_iff.1 hhead
      have hgo : ∀ d c', src.Holds c' → c.index + 1 ≤ c'.index →
          c.index < (parseCommand src fuel t c.index d c').cursor.index :=
        fun d c' hc' hle => (hp.command t c.index d c' (c.index + 1) hc' hle le_rfl).1.2
      show c.index < (parseCommand src (fuel + 1) t c.index .empty c).cursor.index
      rw [parseCommand_succ, hrest]
      rcases CommandDraft.step_empty ht rest with ⟨kind, h⟩ | h | h | h
      · rw [h]
        have hend := hp.block t kind c hc
        dsimp only
        unfold parseAfterBlock
        split
        · exact hgo _ _ hend.1 hend.2
        · exact (CommandDraft.finish_endsFrom _ hend.1 hend.2 le_rfl).2
      · rw [h]
        have hend := (hp.conditional t c hc).1
        exact hgo _ _ hend.1 hend.2
      · rw [h]
        have hend := (hp.compound t c hc).1
        exact hgo _ _ hend.1 hend.2
      · rw [h]
        exact hgo _ _ hc.next le_rfl

end Cookbook
