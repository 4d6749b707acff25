import Cookbook.Proofs.Statement.Fuel

/-!
Tokens put after a file do not change what was read of it. As long as nothing is wrong and a call
ends before the last token, it never looked beyond the end: the same call on the longer list of
tokens returns the same statements. What ends with its closer may end with the file.

* `Parsed.Inside` says that a call ended before the last token without a problem;
* `Prefixed src src' tail fuel` says this for each call; `prefixed` proves it for every `tail` that
  does not start with a dot, by induction on the fuel that both files are read with;
* `parseCommand_append` is what is left of it for a command that ends with the file: it goes on where
  it would have ended, or where its modifier starts.
-/

namespace Cookbook

/-! ### Cursors before more tokens -/

/-- The cursor with more tokens at the end of the file. -/
def Cursor.append (c : Cursor) (tail : List Token) : Cursor := ⟨c.index, c.rest ++ tail⟩

def Parsed.append {α : Type} (p : Parsed α) (tail : List Token) : Parsed α :=
  ⟨p.value, p.cursor.append tail, p.problems⟩

@[simp] theorem Parsed.value_append {α : Type} (p : Parsed α) (tail : List Token) :
    (p.append tail).value = p.value := rfl

@[simp] theorem Parsed.cursor_append {α : Type} (p : Parsed α) (tail : List Token) :
    (p.append tail).cursor = p.cursor.append tail := rfl

@[simp] theorem Parsed.problems_append {α : Type} (p : Parsed α) (tail : List Token) :
    (p.append tail).problems = p.problems := rfl

/-- A source whose tokens are those of another and then more. -/
structure TokenSource.Continues (src' src : TokenSource) (tail : List Token) : Prop where
  tokens : src'.tokens = src.tokens ++ tail
  noDot : tail.head?.any (·.isPunct [".", "&."]) = false

namespace TokenSource

variable {src src' : TokenSource} {c : Cursor} {tail : List Token}

theorem Holds.rest_ne_nil (h : src.Holds c) (hlt : c.index < src.size) : c.rest ≠ [] := by
  unfold Holds at h
  rw [h]
  intro hnil
  exact absurd (List.drop_eq_nil_iff.1 hnil) (Nat.not_le.2 hlt)

theorem Holds.length_rest (h : src.Holds c) : c.rest.length = src.size - c.index := by
  unfold Holds at h
  rw [h, List.length_drop]
  rfl

theorem endBefore_append (h : src'.Continues src tail) {index : Nat} (hi : index ≤ src.size)
    (fallback : Nat) : src'.endBefore index fallback = src.endBefore index fallback := by
  unfold endBefore
  rw [h.tokens, List.take_append_of_le_length hi]

end TokenSource

namespace Cursor

variable {c : Cursor} (tail : List Token)

@[simp] theorem index_append : (c.append tail).index = c.index := rfl

@[simp] theorem rest_append : (c.append tail).rest = c.rest ++ tail := rfl

theorem advance_append {n : Nat} (h : n ≤ c.rest.length) :
    (c.append tail).advance n = (c.advance n).append tail := by
  unfold advance append
  rw [List.drop_append_of_le_length h]

theorem next_append (h : c.rest ≠ []) : (c.append tail).next = c.next.append tail :=
  advance_append tail (List.length_pos_iff.2 h)

theorem skipSeparators_append (h : c.skipSeparators.rest ≠ []) :
    (c.append tail).skipSeparators = c.skipSeparators.append tail := by
  rw [rest_skipSeparators] at h
  unfold skipSeparators
  have hrun : ((c.rest ++ tail).takeWhile Token.isSeparator) = c.rest.takeWhile Token.isSeparator := by
    rw [List.takeWhile_append, if_neg]
    intro hall
    have := List.takeWhile_append_dropWhile (p := Token.isSeparator) (l := c.rest)
    have := congrArg List.length this
    rw [List.length_append, hall] at this
    exact h (List.length_eq_zero_iff.1 (by omega))
  rw [rest_append, hrun]
  exact advance_append tail (List.takeWhile_prefix _).length_le

end Cursor

/-! ### Lines and parameters -/

theorem lineRun_le (stopAtDo : Bool) (last : Option Token) (depth : Nat) (tokens : List Token) :
    (lineRun stopAtDo last depth tokens).2 ≤ tokens.length := by
  induction tokens generalizing last depth with
  | nil => exact le_rfl
  | cons t rest ih =>
    rw [lineRun_cons]
    cases lineStep stopAtDo last depth t with
    | stop => exact Nat.zero_le _
    | close => simp
    | skip => simpa using ih last depth
    | take => simpa using ih (some t) (lineDepth depth t)

/-- A line that ends before the last token is not changed by what follows. -/
theorem lineRun_append (stopAtDo : Bool) (last : Option Token) (depth : Nat)
    (tokens tail : List Token) (h : (lineRun stopAtDo last depth tokens).2 < tokens.length) :
    lineRun stopAtDo last depth (tokens ++ tail) = lineRun stopAtDo last depth tokens := by
  induction tokens generalizing last depth with
  | nil => exact absurd h (Nat.not_lt_zero _)
  | cons t rest ih =>
    rw [lineRun_cons] at h ⊢
    rw [List.cons_append, lineRun_cons]
    cases hstep : lineStep stopAtDo last depth t with
    | stop => rfl
    | close => rfl
    | skip =>
      rw [hstep] at h
      rw [ih last depth (by simpa using h)]
    | take =>
      rw [hstep] at h
      rw [ih (some t) (lineDepth depth t) (by simpa using h)]

section Heads

variable {src : TokenSource} {c : Cursor} (tail : List Token)

theorem Cursor.line_append (hc : src.Holds c) {stopAtDo : Bool}
    (h : (c.line stopAtDo).2.index < src.size) :
    (c.append tail).line stopAtDo = ((c.line stopAtDo).1, (c.line stopAtDo).2.append tail) := by
  have hlen := hc.length_rest
  have hlt : (lineRun stopAtDo none 0 c.rest).2 < c.rest.length := by
    have : c.index + (lineRun stopAtDo none 0 c.rest).2 < src.size := h
    omega
  unfold Cursor.line
  rw [Cursor.rest_append, lineRun_append _ _ _ _ _ hlt]
  dsimp only
  rw [Cursor.advance_append tail hlt.le]

theorem Cursor.params_append (hc : src.Holds c) (h : c.params.2.index < src.size) :
    (c.append tail).params = (c.params.1, c.params.2.append tail) := by
  have hlen := hc.length_rest
  cases hrest : c.rest with
  | nil =>
    have hle := c.le_index_params
    exact absurd hrest (hc.rest_ne_nil (hle.trans_lt h))
  | cons t rest =>
    have hne : c.rest ≠ [] := by simp [hrest]
    rw [hrest, List.length_cons] at hlen
    unfold Cursor.params at h ⊢
    simp only [Cursor.rest_append, hrest, List.cons_append] at h ⊢
    split
    · rw [Cursor.next_append tail hne]
    · rename_i hbars
      rw [if_neg hbars] at h
      split
      · rename_i hbar
        rw [if_pos hbar] at h
        have hlt : (rest.takeWhile fun t => !t.isPunct ["|"]).length + 2 ≤ c.rest.length := by
          rw [hrest, List.length_cons]
          simp only [Cursor.index_advance] at h
          omega
        rw [List.takeWhile_append, if_neg (by
          rw [hrest, List.length_cons] at hlt
          omega)]
        rw [Cursor.advance_append tail hlt]
      · rfl

theorem branchHead_append (hc : src.Holds c) {branchWord : BranchWord}
    (h : (branchHead branchWord c).2.index < src.size) :
    branchHead branchWord (c.append tail) =
      ((branchHead branchWord c).1, (branchHead branchWord c).2.append tail) := by
  unfold branchHead at h ⊢
  split
  · rfl
  · rename_i hne
    rw [if_neg hne] at h
    exact Cursor.line_append tail hc h

end Heads

/-! ### Commands that leave nothing open -/

theorem CommandDraft.openers_of_clean {src : TokenSource} {d : CommandDraft} {first : Token}
    {start : Nat} {c : Cursor} (h : (d.finish src first start c).problems = []) :
    d.openers = [] := by
  unfold CommandDraft.finish at h
  split at h
  · assumption
  · exact absurd h (List.cons_ne_nil _ _)

theorem CommandDraft.finish_append (src src' : TokenSource) {d : CommandDraft} (first : Token)
    (start : Nat) (c : Cursor) (tail : List Token) (h : d.openers = []) :
    d.finish src' first start (c.append tail) = (d.finish src first start c).append tail := by
  unfold CommandDraft.finish
  rw [h]
  rfl

theorem CommandDraft.cursor_finish (src : TokenSource) {d : CommandDraft} (first : Token)
    (start : Nat) (c : Cursor) (h : d.openers = []) : (d.finish src first start c).cursor = c := by
  unfold CommandDraft.finish
  rw [h]

theorem CommandDraft.addRun_append {src : TokenSource} (d : CommandDraft) {c : Cursor}
    (hc : src.Holds c) {index : Nat} (hindex : index ≤ src.size) (tail : List Token) :
    d.addRun (c.append tail) index = d.addRun c index := by
  have hlen := hc.length_rest
  unfold CommandDraft.addRun
  rw [Cursor.rest_append, Cursor.index_append, List.take_append_of_le_length (by omega)]

/-- A command with which nothing is wrong does not go back. -/
theorem parseCommand_le {src : TokenSource} {fuel : Nat} {first : Token} {start : Nat}
    {d : CommandDraft} {c : Cursor} (hc : src.Holds c)
    (h : (parseCommand src fuel first start d c).problems = []) :
    c.index ≤ (parseCommand src fuel first start d c).cursor.index := by
  induction fuel generalizing d c with
  | zero =>
    rw [parseCommand] at h ⊢
    rw [CommandDraft.cursor_finish _ _ _ _ (CommandDraft.openers_of_clean h)]
  | succ fuel ih =>
    have hp := progress src fuel
    rw [parseCommand_succ] at h ⊢
    cases hstep : d.step c.rest with
    | done =>
      rw [hstep] at h
      dsimp only at h ⊢
      rw [CommandDraft.cursor_finish _ _ _ _ (CommandDraft.openers_of_clean h)]
    | skip =>
      rw [hstep] at h
      exact (Nat.le_succ _).trans (ih hc.next h)
    | push t =>
      rw [hstep] at h
      exact (Nat.le_succ _).trans (ih hc.next h)
    | modifier t =>
      rw [hstep] at h
      dsimp only at h ⊢
      rw [CommandDraft.cursor_finish _ _ _ _ (CommandDraft.openers_of_clean h)]
      exact (Nat.le_succ _).trans (c.next.le_index_line false)
    | conditional t =>
      rw [hstep] at h
      have hend := (hp.conditional t c hc).1
      have hrest := (List.append_eq_nil_iff.1 h).2
      exact (Nat.le_succ _).trans (hend.2.trans (ih hend.1 hrest))
    | compound t =>
      rw [hstep] at h
      have hend := (hp.compound t c hc).1
      have hrest := (List.append_eq_nil_iff.1 h).2
      exact (Nat.le_succ _).trans (hend.2.trans (ih hend.1 hrest))
    -- what follows a block is either the command going on or its end
    | block t kind =>
      rw [hstep] at h
      have hend := hp.block t kind c hc
      dsimp only at h ⊢
      unfold parseAfterBlock at h ⊢
      split
      · rename_i u hcloser
        rw [hcloser] at h
        exact (Nat.le_succ _).trans (hend.2.trans (ih hend.1 (List.append_eq_nil_iff.1 h).2))
      · rename_i hcloser
        rw [hcloser] at h
        have hopeners := CommandDraft.openers_of_clean (List.append_eq_nil_iff.1 h).2
        rw [Parsed.cursor_after, CommandDraft.cursor_finish _ _ _ _ hopeners]
        exact (Nat.le_succ _).trans hend.2

/-! ### Closers -/

section Closers

variable {src : TokenSource} {fuel : Nat} {c : Cursor}

theorem skipSeparators_ne_nil_of_closed {word : ConditionalWord}
    (h : (parseBranches src fuel word c).value.2.isSome) : c.skipSeparators.rest ≠ [] := by
  cases fuel with
  | zero => exact absurd h (by simp [parseBranches])
  | succ fuel =>
    intro hnil
    rw [parseBranches_succ, hnil] at h
    exact absurd h (by simp [branchStep])

theorem TokenSource.Holds.index_lt_of_closed {word : ConditionalWord} (hc : src.Holds c)
    (h : (parseBranches src fuel word c).value.2.isSome) : c.index < src.size := by
  obtain ⟨t, rest, hrest⟩ := List.exists_cons_of_ne_nil (skipSeparators_ne_nil_of_closed h)
  exact (c.le_index_skipSeparators).trans_lt (hc.skipSeparators.index_lt hrest)

theorem parseBranches_le {word : ConditionalWord} (hc : src.Holds c)
    (h : (parseBranches src fuel word c).value.2.isSome) :
    (parseBranches src fuel word c).cursor.index ≤ src.size := by
  induction fuel generalizing c with
  | zero => exact absurd h (by simp [parseBranches])
  | succ fuel ih =>
    rw [parseBranches_succ] at h ⊢
    cases hstep : branchStep word c.skipSeparators.rest with
    | done =>
      rw [hstep] at h
      exact absurd h (by simp)
    | close t =>
      obtain ⟨rest, hrest, -⟩ := branchStep_close hstep
      exact hc.skipSeparators.index_lt hrest
    | branch branchWord t =>
      rw [hstep] at h
      have hbody := ((progress src fuel).statements (branchStop word branchWord) _
        (hc.skipSeparators.next.branchHead branchWord)).1
      exact ih hbody.1 h

theorem closer_of_closeBody {isCloser : Token → Bool} {opener : Token} {fault : Fault}
    {p : Parsed (List Statement)} (h : (closeBody src isCloser opener fault p).problems = []) :
    ∃ t, p.cursor.rest.head? = some t ∧ isCloser t = true ∧
      closeBody src isCloser opener fault p = ⟨p.value, some t, p.cursor.next, p.problems⟩ := by
  rcases closeBody_cases src isCloser opener fault p with hclosed | ⟨-, hopen⟩
  · exact hclosed
  · rw [hopen] at h
    exact absurd h (by simp)

theorem closeBody_le {isCloser : Token → Bool} {opener : Token} {fault : Fault}
    {p : Parsed (List Statement)} (hp : src.Holds p.cursor)
    (h : (closeBody src isCloser opener fault p).problems = []) :
    (closeBody src isCloser opener fault p).cursor.index ≤ src.size := by
  obtain ⟨t, hhead, -, he⟩ := closer_of_closeBody h
  obtain ⟨rest, hrest⟩ := List.head?_eq_some_iff.1 hhead
  rw [he]
  exact hp.index_lt hrest

theorem parseBlock_le {opener : Token} {kind : BlockKind} (hc : src.Holds c) (hne : c.rest ≠ [])
    (h : (parseBlock src fuel opener kind c).problems = []) :
    (parseBlock src fuel opener kind c).cursor.index ≤ src.size := by
  cases fuel with
  | zero =>
    obtain ⟨t, rest, hrest⟩ := List.exists_cons_of_ne_nil hne
    exact hc.index_lt hrest
  | succ fuel =>
    exact closeBody_le ((progress src fuel).statements kind.closes _ hc.next.params).1.1 h

/-- A block that there was fuel for and with which nothing is wrong is closed. -/
theorem closer_parseBlock {opener : Token} {kind : BlockKind}
    (h : (parseBlock src (fuel + 1) opener kind c).problems = []) :
    ∃ t, (parseBlock src (fuel + 1) opener kind c).value.closer = some t := by
  rw [parseBlock_succ] at h ⊢
  obtain ⟨t, -, -, he⟩ := closer_of_closeBody h
  dsimp only
  rw [he]
  exact ⟨t, rfl⟩

theorem parseCompound_le {opener : Token} (hc : src.Holds c) (hne : c.rest ≠ [])
    (h : (parseCompound src fuel opener c).problems = []) :
    (parseCompound src fuel opener c).cursor.index ≤ src.size := by
  cases fuel with
  | zero =>
    obtain ⟨t, rest, hrest⟩ := List.exists_cons_of_ne_nil hne
    exact hc.index_lt hrest
  | succ fuel =>
    rw [parseCompound_succ] at h ⊢
    exact closeBody_le ((progress src fuel).statements _ _ (hc.next.line _)).1.1 h

/-- A conditional with which nothing is wrong is closed. -/
theorem closeConditional_closed {opener : Token} {start : Nat} {line : List Token}
    {p : Parsed (List Branch × Option Token)}
    (h : (closeConditional src opener start line p).problems = []) :
    p.value.2.isSome ∧ p.problems = [] ∧
      (closeConditional src opener start line p).cursor = p.cursor := by
  unfold closeConditional at h ⊢
  split
  · rename_i t hcloser
    rw [hcloser] at h
    exact ⟨by rw [hcloser]; rfl, h, rfl⟩
  · rename_i hcloser
    rw [hcloser] at h
    exact absurd h (by simp)

/-- The branches of a conditional that is closed: its first line ends, and so do they, in the file. -/
theorem parseAllBranches_le {opener : Token} (hc : src.Holds c)
    (h : (parseAllBranches src fuel opener c).value.2.isSome) :
    (c.line false).2.index < src.size ∧
      (parseAllBranches src fuel opener c).cursor.index ≤ src.size := by
  unfold parseAllBranches at h ⊢
  split
  · rename_i hword
    rw [if_pos hword] at h
    have hline := (hc.line false).skipSeparators
    exact ⟨((c.line false).2.le_index_skipSeparators).trans_lt (hline.index_lt_of_closed h),
      parseBranches_le hline h⟩
  · rename_i hword
    rw [if_neg hword] at h
    have hhead : branchHead (firstBranchWord (conditionalWord opener)) c = c.line false := by
      cases conditionalWord opener <;> rfl
    unfold parseBranch at h ⊢
    rw [hhead] at h ⊢
    have hbody := ((progress src fuel).statements
      (branchStop (conditionalWord opener) (firstBranchWord (conditionalWord opener))) _
      (hc.line false)).1
    exact ⟨hbody.2.trans_lt (hbody.1.index_lt_of_closed h), parseBranches_le hbody.1 h⟩

theorem parseConditional_le {opener : Token} (hc : src.Holds c) (hne : c.rest ≠ [])
    (h : (parseConditional src fuel opener c).problems = []) :
    (parseConditional src fuel opener c).cursor.index ≤ src.size := by
  cases fuel with
  | zero =>
    obtain ⟨t, rest, hrest⟩ := List.exists_cons_of_ne_nil hne
    exact hc.index_lt hrest
  | succ fuel =>
    rw [parseConditional_succ] at h ⊢
    obtain ⟨hclosed, -, hcursor⟩ := closeConditional_closed h
    rw [hcursor]
    exact (parseAllBranches_le hc.next hclosed).2

end Closers

/-! ### What each call keeps -/

/-- Nothing is wrong with a result, and it ends before the last token. -/
def Parsed.Inside {α : Type} (src : TokenSource) (p : Parsed α) : Prop :=
  p.problems = [] ∧ p.cursor.index < src.size

theorem listStep_append {stop : Token → Bool} {tokens : List Token} (h : tokens ≠ [])
    (tail : List Token) : listStep stop (tokens ++ tail) = listStep stop tokens := by
  cases tokens with
  | nil => exact absurd rfl h
  | cons t rest => rfl

theorem branchStep_append {word : ConditionalWord} {tokens : List Token} (h : tokens ≠ [])
    (tail : List Token) : branchStep word (tokens ++ tail) = branchStep word tokens := by
  cases tokens with
  | nil => exact absurd rfl h
  | cons t rest => rfl

/-- A step looks at most one token beyond a newline, and there only for a dot. -/
theorem CommandDraft.step_append (d : CommandDraft) {tokens tail : List Token} (h : tokens ≠ [])
    (hdot : tail.head?.any (·.isPunct [".", "&."]) = false) :
    d.step (tokens ++ tail) = d.step tokens := by
  cases tokens with
  | nil => exact absurd rfl h
  | cons t rest =>
    have hpast : d.continuesPast t (rest ++ tail) = d.continuesPast t rest := by
      unfold CommandDraft.continuesPast
      cases rest with
      | nil => rw [List.nil_append, hdot]; rfl
      | cons u more => rfl
    simp only [CommandDraft.step, List.cons_append, hpast]

/-- The calls with a given fuel that end inside a source, or with their closer, return the same on a
longer one. -/
structure Prefixed (src src' : TokenSource) (tail : List Token) (fuel : Nat) : Prop where
  statements : ∀ stop c, src.Holds c → (parseStatements src fuel stop c).Inside src →
    parseStatements src' fuel stop (c.append tail) = (parseStatements src fuel stop c).append tail
  statement : ∀ t c, src.Holds c → (parseStatement src fuel t c).Inside src →
    parseStatement src' fuel t (c.append tail) = (parseStatement src fuel t c).append tail
  block : ∀ opener kind c, src.Holds c → c.rest ≠ [] →
    (parseBlock src fuel opener kind c).problems = [] →
    parseBlock src' fuel opener kind (c.append tail) =
      (parseBlock src fuel opener kind c).append tail
  branches : ∀ word c, src.Holds c → (parseBranches src fuel word c).value.2.isSome →
    (parseBranches src fuel word c).problems = [] →
    parseBranches src' fuel word (c.append tail) = (parseBranches src fuel word c).append tail
  conditional : ∀ opener c, src.Holds c → c.rest ≠ [] →
    (parseConditional src fuel opener c).problems = [] →
    parseConditional src' fuel opener (c.append tail) =
      (parseConditional src fuel opener c).append tail
  compound : ∀ opener c, src.Holds c → c.rest ≠ [] →
    (parseCompound src fuel opener c).problems = [] →
    parseCompound src' fuel opener (c.append tail) = (parseCompound src fuel opener c).append tail
  command : ∀ first start d c, src.Holds c → (parseCommand src fuel first start d c).Inside src →
    parseCommand src' fuel first start d (c.append tail) =
      (parseCommand src fuel first start d c).append tail

/-- A body that is closed inside a source is closed in the same place of a longer one. -/
theorem closeBody_append {src src' : TokenSource} {tail : List Token} {isCloser : Token → Bool}
    {opener : Token} {fault : Fault} {p : Parsed (List Statement)} (hp : src.Holds p.cursor)
    (h : (closeBody src isCloser opener fault p).problems = []) :
    p.Inside src ∧
      closeBody src' isCloser opener fault (p.append tail) =
        { closeBody src isCloser opener fault p with
          cursor := (closeBody src isCloser opener fault p).cursor.append tail } := by
  obtain ⟨t, hhead, hcloses, he⟩ := closer_of_closeBody h
  obtain ⟨rest, hrest⟩ := List.head?_eq_some_iff.1 hhead
  rw [he] at h ⊢
  refine ⟨⟨h, hp.index_lt hrest⟩, ?_⟩
  have hnext : (p.cursor.append tail).next = p.cursor.next.append tail :=
    Cursor.next_append tail (by simp [hrest])
  have hhead' : (p.cursor.append tail).rest.head?.filter isCloser = some t := by
    simp [hrest, Option.filter, hcloses]
  unfold closeBody
  simp only [Parsed.append, hhead', hnext]

namespace Prefixed

variable {src src' : TokenSource} {tail : List Token} {fuel : Nat}

theorem zero (src src' : TokenSource) (tail : List Token) : Prefixed src src' tail 0 where
  statements stop c hc h := by
    rw [parseStatements, parseStatements]
    rfl
  statement t c hc h := by
    rw [parseStatement] at h
    rw [parseStatement, parseStatement,
      Cursor.next_append tail (hc.rest_ne_nil ((Nat.lt_succ_self _).trans h.2))]
    rfl
  block opener kind c _ hne _ := by
    rw [parseBlock, parseBlock, Cursor.next_append tail hne]
    rfl
  branches word c _ _ _ := by
    rw [parseBranches, parseBranches]
    rfl
  conditional opener c _ hne _ := by
    rw [parseConditional, parseConditional, Cursor.next_append tail hne]
    rfl
  compound opener c _ hne _ := by
    rw [parseCompound, parseCompound, Cursor.next_append tail hne]
    rfl
  command first start d c hc h := by
    rw [parseCommand] at h ⊢
    rw [parseCommand]
    exact CommandDraft.finish_append src src' first start c tail (CommandDraft.openers_of_clean h.1)

section Succ

variable (ih : Prefixed src src' tail fuel)

include ih

theorem statements_succ (stop : Token → Bool) (c : Cursor) (hc : src.Holds c)
    (h : (parseStatements src (fuel + 1) stop c).Inside src) :
    parseStatements src' (fuel + 1) stop (c.append tail) =
      (parseStatements src (fuel + 1) stop c).append tail := by
  have hs := hc.skipSeparators
  have hp := progress src fuel
  have hlt : c.skipSeparators.index < src.size := by
    rw [← parseStatements_skipSeparators] at h
    exact ((progress src (fuel + 1)).statements stop _ hs).1.2.trans_lt h.2
  have hne := hs.rest_ne_nil hlt
  rw [parseStatements_succ src', parseStatements_succ src, Cursor.skipSeparators_append tail hne,
    Cursor.rest_append, listStep_append hne]
  rw [parseStatements_succ] at h
  cases hstep : listStep stop c.skipSeparators.rest with
  | done => rfl
  | stray t =>
    rw [hstep] at h
    exact absurd h.1 (by simp)
  | pass =>
    rw [hstep] at h
    dsimp only
    rw [Cursor.next_append tail hne]
    exact ih.statements stop _ hs.next h
  | statement t =>
    rw [hstep] at h
    obtain ⟨hprob, hend⟩ := h
    obtain ⟨hprob₁, hprob₂⟩ := List.append_eq_nil_iff.1 hprob
    have hfirst := (hp.statement t _ hs).1
    have hle := ((hp.statements stop _ hfirst.1).1).2
    dsimp only
    rw [ih.statement t _ hs ⟨hprob₁, hle.trans_lt hend⟩]
    show _ = _
    rw [show ((parseStatement src fuel t c.skipSeparators).append tail).cursor =
      (parseStatement src fuel t c.skipSeparators).cursor.append tail from rfl,
      ih.statements stop _ hfirst.1 ⟨hprob₂, hend⟩]
    rfl

theorem statement_succ (t : Token) (c : Cursor) (hc : src.Holds c)
    (h : (parseStatement src (fuel + 1) t c).Inside src) :
    parseStatement src' (fuel + 1) t (c.append tail) =
      (parseStatement src (fuel + 1) t c).append tail := by
  have hle := ((progress src (fuel + 1)).statement t c hc).1.2
  have hne := hc.rest_ne_nil (hle.trans_lt h.2)
  rw [parseStatement_succ] at h ⊢
  rw [parseStatement_succ]
  split
  · rename_i hword
    rw [if_pos hword] at h
    rw [ih.conditional t c hc hne h.1]
    rfl
  · rename_i hword
    rw [if_neg hword] at h
    split
    · rename_i hword'
      rw [if_pos hword'] at h
      rw [ih.compound t c hc hne h.1]
      rfl
    · rename_i hword'
      rw [if_neg hword'] at h
      have := ih.command t c.index .empty c hc h
      rw [Cursor.index_append, this]
      rfl

theorem block_succ (opener : Token) (kind : BlockKind) (c : Cursor) (hc : src.Holds c)
    (hne : c.rest ≠ []) (h : (parseBlock src (fuel + 1) opener kind c).problems = []) :
    parseBlock src' (fuel + 1) opener kind (c.append tail) =
      (parseBlock src (fuel + 1) opener kind c).append tail := by
  rw [parseBlock_succ] at h ⊢
  rw [parseBlock_succ]
  have hparams := hc.next.params
  have hend := ((progress src fuel).statements kind.closes _ hparams).1
  obtain ⟨hin, hclose⟩ := closeBody_append hend.1 h
  rw [Cursor.next_append tail hne, Cursor.params_append tail hc.next (hend.2.trans_lt hin.2)]
  dsimp only
  rw [ih.statements _ _ hparams hin, hclose]
  rfl

theorem branch_succ (word : ConditionalWord) (branchWord : BranchWord) (t : Token) (c : Cursor)
    (hc : src.Holds c) (hclosed : (parseBranch src fuel word branchWord t c).value.2.isSome)
    (h : (parseBranch src fuel word branchWord t c).problems = []) :
    parseBranch src' fuel word branchWord t (c.append tail) =
      (parseBranch src fuel word branchWord t c).append tail := by
  have hhead := hc.branchHead branchWord
  have hbody := ((progress src fuel).statements (branchStop word branchWord) _ hhead).1
  obtain ⟨hprob₁, hprob₂⟩ := List.append_eq_nil_iff.1 h
  have hlt := hbody.1.index_lt_of_closed hclosed
  unfold parseBranch
  rw [branchHead_append tail hc (hbody.2.trans_lt hlt)]
  dsimp only
  rw [ih.statements _ _ hhead ⟨hprob₁, hlt⟩]
  dsimp only [Parsed.append]
  rw [ih.branches word _ hbody.1 hclosed hprob₂]
  rfl

theorem branches_succ (word : ConditionalWord) (c : Cursor) (hc : src.Holds c)
    (hclosed : (parseBranches src (fuel + 1) word c).value.2.isSome)
    (h : (parseBranches src (fuel + 1) word c).problems = []) :
    parseBranches src' (fuel + 1) word (c.append tail) =
      (parseBranches src (fuel + 1) word c).append tail := by
  have hs := hc.skipSeparators
  have hne := skipSeparators_ne_nil_of_closed hclosed
  rw [parseBranches_succ src', parseBranches_succ src, Cursor.skipSeparators_append tail hne,
    Cursor.rest_append, branchStep_append hne]
  rw [parseBranches_succ] at h hclosed
  cases hstep : branchStep word c.skipSeparators.rest with
  | done => rfl
  | close t =>
    dsimp only
    rw [Cursor.next_append tail hne]
    rfl
  | branch branchWord t =>
    rw [hstep] at h hclosed
    dsimp only
    rw [Cursor.next_append tail hne]
    exact ih.branch_succ word branchWord t _ hs.next hclosed h

theorem allBranches_succ (opener : Token) (c : Cursor) (hc : src.Holds c)
    (hclosed : (parseAllBranches src fuel opener c).value.2.isSome)
    (h : (parseAllBranches src fuel opener c).problems = []) :
    parseAllBranches src' fuel opener (c.append tail) =
      (parseAllBranches src fuel opener c).append tail := by
  have hlt := (parseAllBranches_le hc hclosed).1
  unfold parseAllBranches at h hclosed ⊢
  split
  · rename_i hword
    rw [if_pos hword] at h hclosed
    have hline := (hc.line false).skipSeparators
    rw [Cursor.line_append tail hc hlt]
    dsimp only
    rw [Cursor.skipSeparators_append tail (hline.rest_ne_nil (hline.index_lt_of_closed hclosed))]
    exact ih.branches .caseOf _ hline hclosed h
  · rename_i hword
    rw [if_neg hword] at h hclosed
    exact ih.branch_succ _ _ opener c hc hclosed h

theorem conditional_succ (hsrc : src'.Continues src tail) (opener : Token) (c : Cursor)
    (hc : src.Holds c) (hne : c.rest ≠ [])
    (h : (parseConditional src (fuel + 1) opener c).problems = []) :
    parseConditional src' (fuel + 1) opener (c.append tail) =
      (parseConditional src (fuel + 1) opener c).append tail := by
  rw [parseConditional_succ] at h ⊢
  rw [parseConditional_succ]
  obtain ⟨hclosed, hprob, -⟩ := closeConditional_closed h
  obtain ⟨hlt, hle⟩ := parseAllBranches_le hc.next hclosed
  obtain ⟨t, hcloser⟩ := Option.isSome_iff_exists.1 hclosed
  rw [Cursor.next_append tail hne, Cursor.line_append tail hc.next hlt,
    ih.allBranches_succ opener _ hc.next hclosed hprob]
  unfold closeConditional buildConditional
  have hcloser' : ((parseAllBranches src fuel opener c.next).append tail).value.2 = some t := hcloser
  rw [hcloser, hcloser']
  simp only [Parsed.append, Cursor.index_append, TokenSource.endBefore_append hsrc hle]

theorem compound_succ (hsrc : src'.Continues src tail) (opener : Token) (c : Cursor)
    (hc : src.Holds c) (hne : c.rest ≠ [])
    (h : (parseCompound src (fuel + 1) opener c).problems = []) :
    parseCompound src' (fuel + 1) opener (c.append tail) =
      (parseCompound src (fuel + 1) opener c).append tail := by
  have hle := parseCompound_le hc hne h
  rw [parseCompound_succ] at h hle ⊢
  rw [parseCompound_succ]
  have hline := hc.next.line (isLoopWord opener.text)
  have hend := ((progress src fuel).statements (·.isKeyword ["end"]) _ hline).1
  obtain ⟨hin, hclose⟩ := closeBody_append hend.1 h
  rw [Cursor.next_append tail hne, Cursor.line_append tail hc.next (hend.2.trans_lt hin.2)]
  dsimp only
  rw [ih.statements _ _ hline hin, hclose]
  simp only [Parsed.append, Cursor.index_append, TokenSource.endBefore_append hsrc hle]

theorem command_succ (hsrc : src'.Continues src tail) (first : Token) (start : Nat)
    (d : CommandDraft) (c : Cursor) (hc : src.Holds c)
    (h : (parseCommand src (fuel + 1) first start d c).Inside src) :
    parseCommand src' (fuel + 1) first start d (c.append tail) =
      (parseCommand src (fuel + 1) first start d c).append tail := by
  have hp := progress src fuel
  have hne := hc.rest_ne_nil ((parseCommand_le hc h.1).trans_lt h.2)
  have hnext := Cursor.next_append tail hne
  -- a value that spans statements takes the same tokens
  have hrun : ∀ index, index ≤ src.size →
      d.addRun (c.append tail) index = d.addRun c index :=
    fun index hindex => d.addRun_append hc hindex tail
  rw [parseCommand_succ src', parseCommand_succ src, Cursor.rest_append,
    d.step_append hne hsrc.noDot]
  rw [parseCommand_succ] at h
  cases hstep : d.step c.rest with
  | done =>
    rw [hstep] at h
    exact CommandDraft.finish_append src src' first start c tail (CommandDraft.openers_of_clean h.1)
  | skip =>
    rw [hstep] at h
    dsimp only
    rw [hnext]
    exact ih.command first start d _ hc.next h
  | push t =>
    rw [hstep] at h
    dsimp only
    rw [hnext]
    exact ih.command first start _ _ hc.next h
  | modifier t =>
    rw [hstep] at h
    have hopen := CommandDraft.openers_of_clean h.1
    have hlt : (c.next.line false).2.index < src.size := by
      have := h.2
      dsimp only at this
      rwa [CommandDraft.cursor_finish _ _ _ _ hopen] at this
    dsimp only
    rw [hnext, Cursor.line_append tail hc.next hlt]
    exact CommandDraft.finish_append src src' first start _ tail hopen
  | conditional t =>
    rw [hstep] at h
    obtain ⟨hprob, hend⟩ := h
    obtain ⟨hprob₁, hprob₂⟩ := List.append_eq_nil_iff.1 hprob
    have hnested := (hp.conditional t c hc).1
    have hle := parseConditional_le hc hne hprob₁
    dsimp only
    rw [ih.conditional t c hc hne hprob₁]
    dsimp only [Parsed.append, Cursor.index_append]
    rw [hrun _ hle, ih.command first start _ _ hnested.1 ⟨hprob₂, hend⟩]
    rfl
  | compound t =>
    rw [hstep] at h
    obtain ⟨hprob, hend⟩ := h
    obtain ⟨hprob₁, hprob₂⟩ := List.append_eq_nil_iff.1 hprob
    have hnested := (hp.compound t c hc).1
    have hle := parseCompound_le hc hne hprob₁
    dsimp only
    rw [ih.compound t c hc hne hprob₁]
    dsimp only [Parsed.append, Cursor.index_append]
    rw [hrun _ hle, ih.command first start _ _ hnested.1 ⟨hprob₂, hend⟩]
    rfl
  | block t kind =>
    rw [hstep] at h
    have hblock := hp.block t kind c hc
    dsimp only at h ⊢
    unfold parseAfterBlock at h ⊢
    cases hcloser : (parseBlock src fuel t kind c).value.closer with
    | some u =>
      rw [hcloser] at h
      obtain ⟨hprob, hend⟩ := h
      obtain ⟨hprob₁, hprob₂⟩ := List.append_eq_nil_iff.1 hprob
      rw [ih.block t kind c hc hne hprob₁]
      simp only [Parsed.value_append, Parsed.cursor_append, Parsed.problems_append, hcloser]
      rw [ih.command first start _ _ hblock.1 ⟨hprob₂, hend⟩]
      rfl
    | none =>
      rw [hcloser] at h
      obtain ⟨hprob, hend⟩ := h
      obtain ⟨hprob₁, hprob₂⟩ := List.append_eq_nil_iff.1 hprob
      have hopeners := CommandDraft.openers_of_clean hprob₂
      rw [ih.block t kind c hc hne hprob₁]
      simp only [Parsed.value_append, Parsed.cursor_append, Parsed.problems_append, hcloser]
      rw [CommandDraft.finish_append src src' first start _ tail hopeners]
      rfl

end Succ

end Prefixed

/-- Calls that end inside a source return the same on every continuation that starts with no dot. -/
theorem prefixed {src src' : TokenSource} {tail : List Token} (hsrc : src'.Continues src tail)
    (fuel : Nat) : Prefixed src src' tail fuel := by
  induction fuel with
  | zero => exact .zero src src' tail
  | succ fuel ih =>
    exact ⟨ih.statements_succ, ih.statement_succ, ih.block_succ, ih.branches_succ,
      ih.conditional_succ hsrc, ih.compound_succ hsrc, ih.command_succ hsrc⟩

/-! ### Commands that end with the file -/

theorem Parsed.after_nil {α : Type} (p : Parsed α) : p.after [] = p := rfl

section Commands

variable {src src' : TokenSource} {tail : List Token} {first : Token} {start : Nat}

/-- What is left of a command at a cursor of the source: the command that the draft gives when nothing
follows, or a modifier whose line runs to the end of the file. -/
def CommandDraft.LastsAt (src : TokenSource) (e : CommandDraft) (c : Cursor) (first : Token)
    (start : Nat) (command : Command) : Prop :=
  (c.rest = [] ∧ command = e.build first start) ∨
    ∃ t, e.step c.rest = .modifier t ∧ src.size ≤ (c.next.line false).2.index ∧
      command = (e.addModifier t (c.next.line false).1).build first start

theorem CommandDraft.lastsAt_finish {d : CommandDraft} {c : Cursor} (hc : src.Holds c)
    (h : (d.finish src first start c).problems = [])
    (hend : src.size ≤ (d.finish src first start c).cursor.index) :
    d.openers = [] ∧ d.LastsAt src c first start (d.finish src first start c).value := by
  have hopen := CommandDraft.openers_of_clean h
  rw [CommandDraft.finish_nil _ _ _ _ hopen] at hend ⊢
  refine ⟨hopen, .inl ⟨?_, rfl⟩⟩
  unfold TokenSource.Holds at hc
  rw [hc, List.drop_eq_nil_iff]
  exact hend

/-- The command `command` of the source, with a fuel at a cursor, goes on as the call `q` with more
tokens: what it has read till then is what it is made of, and each unit of fuel spent has taken a
token. -/
def GoesOn (src src' : TokenSource) (tail : List Token) (first : Token) (start fuel : Nat) (c : Cursor)
    (command : Command) (q : Parsed Command) : Prop :=
  ∃ g e c', src.Holds c' ∧ e.openers = [] ∧ e.modifier = none ∧ c'.index ≤ src.size ∧
    fuel + c.index ≤ g + c'.index ∧ e.LastsAt src c' first start command ∧
    q = parseCommand src' g first start e (c'.append tail)

theorem GoesOn.of_le {fuel fuel' : Nat} {c c' : Cursor} {command : Command} {q : Parsed Command}
    (h : GoesOn src src' tail first start fuel' c' command q)
    (hle : fuel + c.index ≤ fuel' + c'.index) :
    GoesOn src src' tail first start fuel c command q := by
  obtain ⟨g, e, c₁, hc₁, hopen, hmodifier, hsize, hfuel, hlast, rfl⟩ := h
  exact ⟨g, e, c₁, hc₁, hopen, hmodifier, hsize, hle.trans hfuel, hlast, rfl⟩

/-- A command that is done at the end of the file goes on there. -/
theorem GoesOn.of_finish {fuel : Nat} {d : CommandDraft} {c : Cursor} (hc : src.Holds c)
    (hle : c.index ≤ src.size) (hmodifier : d.modifier = none)
    (h : (d.finish src first start c).problems = [])
    (hend : src.size ≤ (d.finish src first start c).cursor.index) :
    GoesOn src src' tail first start fuel c (d.finish src first start c).value
      (parseCommand src' fuel first start d (c.append tail)) := by
  obtain ⟨hopen, hlast⟩ := CommandDraft.lastsAt_finish hc h hend
  exact ⟨fuel, d, c, hc, hopen, hmodifier, hle, le_rfl, hlast, rfl⟩

/-- A command that ends with the file goes on with the tokens after the file. -/
theorem parseCommand_append (hsrc : src'.Continues src tail) {fuel : Nat} {d : CommandDraft}
    {c : Cursor} (hc : src.Holds c) (hle : c.index ≤ src.size) (hmodifier : d.modifier = none)
    (h : (parseCommand src fuel first start d c).problems = [])
    (hend : src.size ≤ (parseCommand src fuel first start d c).cursor.index) :
    GoesOn src src' tail first start fuel c (parseCommand src fuel first start d c).value
      (parseCommand src' fuel first start d (c.append tail)) := by
  induction fuel generalizing d c with
  | zero =>
    rw [parseCommand] at h hend ⊢
    exact .of_finish hc hle hmodifier h hend
  | succ fuel ih =>
    have hp := progress src fuel
    have hpre := prefixed hsrc fuel
    -- the rest of the command further right
    have hgo : ∀ {d' c'}, d'.modifier = none → src.Holds c' → c.index + 1 ≤ c'.index →
        c'.index ≤ src.size → (parseCommand src fuel first start d' c').problems = [] →
        src.size ≤ (parseCommand src fuel first start d' c').cursor.index →
        GoesOn src src' tail first start (fuel + 1) c (parseCommand src fuel first start d' c').value
          (parseCommand src' fuel first start d' (c'.append tail)) := by
      intro d' c' hmodifier' hc' hlt hle' h' hend'
      exact (ih hc' hle' hmodifier' h' hend').of_le (by omega)
    by_cases hne : c.rest = []
    · have hdone : parseCommand src (fuel + 1) first start d c = d.finish src first start c := by
        rw [parseCommand_succ, hne]
        rfl
      rw [hdone] at h hend ⊢
      exact .of_finish hc hle hmodifier h hend
    have hlt : c.index + 1 ≤ src.size := by
      obtain ⟨t, rest, hrest⟩ := List.exists_cons_of_ne_nil hne
      exact hc.index_lt hrest
    have hnext := Cursor.next_append tail hne
    have hstep' : d.step (c.append tail).rest = d.step c.rest := by
      rw [Cursor.rest_append, d.step_append hne hsrc.noDot]
    have hsucc := parseCommand_succ src' fuel first start d (c.append tail)
    rw [hstep'] at hsucc
    rw [parseCommand_succ] at h hend ⊢
    cases hstep : d.step c.rest with
    | done =>
      rw [hstep] at h hend
      exact .of_finish hc hle hmodifier h hend
    | skip =>
      rw [hstep] at h hend hsucc
      rw [hsucc, hnext]
      exact hgo hmodifier hc.next le_rfl hlt h hend
    | push t =>
      rw [hstep] at h hend hsucc
      rw [hsucc, hnext]
      exact hgo hmodifier hc.next le_rfl hlt h hend
    | modifier t =>
      rw [hstep] at h hend
      have hopen : (d.addModifier t (c.next.line false).1).openers = [] :=
        CommandDraft.openers_of_clean h
      dsimp only at hend ⊢
      rw [CommandDraft.cursor_finish _ _ _ _ hopen] at hend
      rw [CommandDraft.finish_nil _ _ _ _ hopen]
      exact ⟨fuel + 1, d, c, hc, hopen, hmodifier, hle, le_rfl, .inr ⟨t, hstep, hend, rfl⟩, rfl⟩
    | conditional t =>
      rw [hstep] at h hend hsucc
      obtain ⟨hprob₁, hprob₂⟩ := List.append_eq_nil_iff.1 h
      have hnested := (hp.conditional t c hc).1
      have hsize := parseConditional_le hc hne hprob₁
      dsimp only at hend hsucc ⊢
      rw [hsucc, hpre.conditional t c hc hne hprob₁]
      simp only [Parsed.problems_append, hprob₁, Parsed.after_nil, Parsed.cursor_append,
        Cursor.index_append, d.addRun_append hc hsize tail]
      exact hgo hmodifier hnested.1 hnested.2 hsize hprob₂ hend
    | compound t =>
      rw [hstep] at h hend hsucc
      obtain ⟨hprob₁, hprob₂⟩ := List.append_eq_nil_iff.1 h
      have hnested := (hp.compound t c hc).1
      have hsize := parseCompound_le hc hne hprob₁
      dsimp only at hend hsucc ⊢
      rw [hsucc, hpre.compound t c hc hne hprob₁]
      simp only [Parsed.problems_append, hprob₁, Parsed.after_nil, Parsed.cursor_append,
        Cursor.index_append, d.addRun_append hc hsize tail]
      exact hgo hmodifier hnested.1 hnested.2 hsize hprob₂ hend
    | block t kind =>
      rw [hstep] at h hend hsucc
      have hblock := hp.block t kind c hc
      dsimp only at h hend hsucc ⊢
      rw [hsucc]
      unfold parseAfterBlock at h hend ⊢
      cases hcloser : (parseBlock src fuel t kind c).value.closer with
      | some u =>
        rw [hcloser] at h hend
        obtain ⟨hprob₁, hprob₂⟩ := List.append_eq_nil_iff.1 h
        have hsize := parseBlock_le hc hne hprob₁
        rw [hpre.block t kind c hc hne hprob₁]
        simp only [Parsed.value_append, Parsed.cursor_append, Parsed.problems_append, hcloser, hprob₁,
          Parsed.after_nil]
        exact hgo ((d.modifier_addBlock _).trans hmodifier) hblock.1 hblock.2 hsize hprob₂ hend
      | none =>
        rw [hcloser] at h hend
        obtain ⟨hprob₁, hprob₂⟩ := List.append_eq_nil_iff.1 h
        have hsize := parseBlock_le hc hne hprob₁
        -- only a block that there was no fuel for is open without a problem
        obtain rfl : fuel = 0 := by
          cases fuel with
          | zero => rfl
          | succ fuel =>
            obtain ⟨u, hu⟩ := closer_parseBlock hprob₁
            exact absurd (hu.symm.trans hcloser) (Option.some_ne_none u)
        rw [hpre.block t kind c hc hne hprob₁]
        simp only [Parsed.value_append, Parsed.cursor_append, Parsed.problems_append, hcloser, hprob₁,
          Parsed.after_nil]
        exact hgo ((d.modifier_addBlock _).trans hmodifier) hblock.1 hblock.2 hsize hprob₂ hend

end Commands

end Cookbook
