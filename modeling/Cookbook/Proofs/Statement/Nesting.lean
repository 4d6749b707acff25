import Cookbook.Proofs.Statement.Boundary
import Cookbook.Proofs.Statement.Branches

/-!
What a parse without problems says about brackets. Commands and blocks keep track of what is open, and
report what is not closed; so every opener that they read has its closer, though the closer may be of
another kind. The rest of a line after a word such as `if`, and the parameters of a block, are passed
without that check: there only the line, or the second bar, is looked for.

* `nest` reads brackets with a stack of openers, `WellNested` is what the stack accepts;
* `Walks` is what the parser does instead: `Unchecked` runs are passed whole, and a closer of any kind
  takes the last opener; `Walks.nest` says what is missing to a nested text;
* `Reading.Matched` says that a call walks over the tokens it reads, and every call keeps it;
* `brackets_of_clean_parse` is the result for whole files.
-/

namespace Cookbook

/-! ### Nesting -/

/-- Whether the closer is of the kind of the opener. -/
def Token.closedBy (o t : Token) : Bool :=
  (o.isPunct ["("] && t.isPunct [")"]) || (o.isPunct ["["] && t.isPunct ["]"]) ||
    (o.isPunct ["\x7b"] && t.isPunct ["\x7d"])

/-- The openers that are open after a token, innermost first, given those open before it; none when it
is a closer that does not close the innermost one. -/
def nestStep (opened : List Token) (t : Token) : Option (List Token) :=
  if t.isOpener then some (t :: opened)
  else if t.isCloser then
    match opened with
    | o :: outer => if o.closedBy t then some outer else none
    | [] => none
  else some opened

/-- The openers that are open after some tokens. -/
def nest (opened tokens : List Token) : Option (List Token) := tokens.foldlM nestStep opened

/-- Every opener is closed by a closer of its own kind, and nothing else is closed. -/
def WellNested (tokens : List Token) : Prop := nest [] tokens = some []

instance instDecidableWellNested (tokens : List Token) : Decidable (WellNested tokens) :=
  inferInstanceAs (Decidable (nest [] tokens = some []))

section Nest

variable {opened opened' : List Token}

theorem nest_cons (opened : List Token) (t : Token) (rest : List Token) :
    nest opened (t :: rest) = (nestStep opened t).bind fun opened => nest opened rest :=
  List.foldlM_cons

theorem nest_append (opened tokens tail : List Token) :
    nest opened (tokens ++ tail) = (nest opened tokens).bind fun opened => nest opened tail :=
  List.foldlM_append

theorem nestStep_plain {t : Token} (ho : t.isOpener = false) (hc : t.isCloser = false)
    (opened : List Token) : nestStep opened t = some opened := by
  simp [nestStep, ho, hc]

theorem nestStep_opener {t : Token} (ho : t.isOpener = true) (opened : List Token) :
    nestStep opened t = some (t :: opened) := by
  simp [nestStep, ho]

theorem nestStep_closer {t : Token} (ho : t.isOpener = false) (hc : t.isCloser = true) (o : Token)
    (opened : List Token) : nestStep (o :: opened) t = if o.closedBy t then some opened else none := by
  simp [nestStep, ho, hc]

/-- What is open further out does not count. -/
theorem nestStep_outer {t : Token} (h : nestStep opened t = some opened') (outer : List Token) :
    nestStep (opened ++ outer) t = some (opened' ++ outer) := by
  cases ho : t.isOpener with
  | true =>
    rw [nestStep_opener ho] at h ⊢
    obtain rfl := Option.some.inj h
    rfl
  | false =>
    cases hc : t.isCloser with
    | false =>
      rw [nestStep_plain ho hc] at h ⊢
      obtain rfl := Option.some.inj h
      rfl
    | true =>
      cases opened with
      | nil => exact absurd h (by simp [nestStep, ho, hc])
      | cons o more =>
        rw [List.cons_append, nestStep_closer ho hc] at *
        split at h
        · rw [if_pos ‹_›]
          obtain rfl := Option.some.inj h
          rfl
        · exact absurd h (by simp)

theorem nest_outer {tokens : List Token} (h : nest opened tokens = some opened')
    (outer : List Token) : nest (opened ++ outer) tokens = some (opened' ++ outer) := by
  induction tokens generalizing opened with
  | nil =>
    obtain rfl := Option.some.inj h
    rfl
  | cons t rest ih =>
    rw [nest_cons] at h ⊢
    obtain ⟨next, hnext, hrest⟩ := Option.bind_eq_some_iff.1 h
    rw [nestStep_outer hnext]
    exact ih hrest

end Nest

/-! ### Walking over tokens -/

/-- The words after which the rest of the line is passed. -/
def lineWords : List Text :=
  ["if", "unless", "case", "elsif", "when", "begin", "def", "class", "module", "while", "until", "for"]

/-- A run that is passed without looking at what its brackets match, and the tokens after it: a word
with the rest of its line, or the parameters of a block with the bars around them. -/
inductive Unchecked : (run rest : List Token) → Prop
  | line (word : Token) (stopAtDo : Bool) (tokens : List Token)
      (hword : word.isKeyword lineWords = true) :
      Unchecked (word :: tokens.take (lineRun stopAtDo none 0 tokens).2)
        (tokens.drop (lineRun stopAtDo none 0 tokens).2)
  | params (bar : Token) (tokens : List Token) (hbar : bar.isPunct ["|"] = true) :
      Unchecked (bar :: tokens.take ((tokens.takeWhile fun t => !t.isPunct ["|"]).length + 1))
        (tokens.drop ((tokens.takeWhile fun t => !t.isPunct ["|"]).length + 1))

/-- From some open brackets and the tokens ahead to others further on: openers are put on the stack, a
closer takes the last one, and unchecked runs are passed. The gaps are the unchecked runs, the pairs
the openers with the closers that took them. -/
inductive Walks : (opened tokens : List Token) → (gaps : List (List Token)) →
    (pairs : List (Token × Token)) → (opened' rest : List Token) → Prop
  | nil (opened tokens : List Token) : Walks opened tokens [] [] opened tokens
  | plain {opened tokens opened' rest : List Token} {gaps : List (List Token)}
      {pairs : List (Token × Token)} {t : Token} (hopener : t.isOpener = false)
      (hcloser : t.isCloser = false) (h : Walks opened tokens gaps pairs opened' rest) :
      Walks opened (t :: tokens) gaps pairs opened' rest
  | opener {opened tokens opened' rest : List Token} {gaps : List (List Token)}
      {pairs : List (Token × Token)} {t : Token} (hopener : t.isOpener = true)
      (h : Walks (t :: opened) tokens gaps pairs opened' rest) :
      Walks opened (t :: tokens) gaps pairs opened' rest
  | closer {opened tokens opened' rest : List Token} {gaps : List (List Token)}
      {pairs : List (Token × Token)} {o t : Token} (hopener : t.isOpener = false)
      (hcloser : t.isCloser = true) (h : Walks opened tokens gaps pairs opened' rest) :
      Walks (o :: opened) (t :: tokens) gaps ((o, t) :: pairs) opened' rest
  | gap {opened tokens opened' rest run : List Token} {gaps : List (List Token)}
      {pairs : List (Token × Token)} (hrun : Unchecked run tokens)
      (h : Walks opened tokens gaps pairs opened' rest) :
      Walks opened (run ++ tokens) (run :: gaps) pairs opened' rest

/-- When the gaps are nested and each closer is of the kind of its opener, what is walked over is
nested. -/
theorem Walks.nest {opened tokens opened' rest : List Token} {gaps : List (List Token)}
    {pairs : List (Token × Token)} (h : Walks opened tokens gaps pairs opened' rest)
    (hgaps : ∀ g ∈ gaps, WellNested g) (hpairs : ∀ p ∈ pairs, p.1.closedBy p.2 = true) :
    ∃ run, tokens = run ++ rest ∧ Cookbook.nest opened run = some opened' := by
  induction h with
  | nil opened tokens => exact ⟨[], rfl, rfl⟩
  | @plain _ _ _ _ _ _ t ho hc _ ih =>
    obtain ⟨run, rfl, hrun⟩ := ih hgaps hpairs
    refine ⟨t :: run, rfl, ?_⟩
    rw [nest_cons, nestStep_plain ho hc]
    exact hrun
  | @opener _ _ _ _ _ _ t ho _ ih =>
    obtain ⟨run, rfl, hrun⟩ := ih hgaps hpairs
    refine ⟨t :: run, rfl, ?_⟩
    rw [nest_cons, nestStep_opener ho]
    exact hrun
  | @closer _ _ _ _ _ _ o t ho hc _ ih =>
    obtain ⟨run, rfl, hrun⟩ := ih hgaps fun p hp => hpairs p (List.mem_cons_of_mem _ hp)
    have hkind : o.closedBy t = true := hpairs (o, t) List.mem_cons_self
    refine ⟨t :: run, rfl, ?_⟩
    rw [nest_cons, nestStep_closer ho hc, if_pos hkind]
    exact hrun
  | @gap opened _ _ _ run _ _ _ _ ih =>
    obtain ⟨more, rfl, hmore⟩ := ih (fun g hg => hgaps g (List.mem_cons_of_mem _ hg)) hpairs
    have hrun : Cookbook.nest opened run = some opened :=
      nest_outer (hgaps run List.mem_cons_self) opened
    refine ⟨run ++ more, (List.append_assoc _ _ _).symm, ?_⟩
    rw [nest_append, hrun]
    exact hmore

/-- There is a walk from some open brackets and tokens ahead to others. -/
def Crosses (opened tokens opened' rest : List Token) : Prop :=
  ∃ gaps pairs, Walks opened tokens gaps pairs opened' rest

namespace Crosses

variable {opened opened' opened'' tokens rest more : List Token}

theorem refl (opened tokens : List Token) : Crosses opened tokens opened tokens :=
  ⟨[], [], .nil _ _⟩

theorem trans (h : Crosses opened tokens opened' rest) (h' : Crosses opened' rest opened'' more) :
    Crosses opened tokens opened'' more := by
  obtain ⟨gaps, pairs, h⟩ := h
  induction h with
  | nil => exact h'
  | plain ho hc _ ih =>
    obtain ⟨gaps, pairs, h⟩ := ih h'
    exact ⟨gaps, pairs, .plain ho hc h⟩
  | opener ho _ ih =>
    obtain ⟨gaps, pairs, h⟩ := ih h'
    exact ⟨gaps, pairs, .opener ho h⟩
  | closer ho hc _ ih =>
    obtain ⟨gaps, pairs, h⟩ := ih h'
    exact ⟨gaps, _, .closer ho hc h⟩
  | gap hrun _ ih =>
    obtain ⟨gaps, pairs, h⟩ := ih h'
    exact ⟨_, pairs, .gap hrun h⟩

theorem plain {t : Token} (h : t.isOpener = false ∧ t.isCloser = false) (opened rest : List Token) :
    Crosses opened (t :: rest) opened rest :=
  ⟨_, _, .plain h.1 h.2 (.nil _ _)⟩

theorem opener {t : Token} (h : t.isOpener = true) (opened rest : List Token) :
    Crosses opened (t :: rest) (t :: opened) rest :=
  ⟨_, _, .opener h (.nil _ _)⟩

theorem closer {t : Token} (ho : t.isOpener = false) (hc : t.isCloser = true) (o : Token)
    (opened rest : List Token) : Crosses (o :: opened) (t :: rest) opened rest :=
  ⟨_, _, .closer ho hc (.nil _ _)⟩

theorem gap {run : List Token} (h : Unchecked run rest) (opened : List Token) :
    Crosses opened (run ++ rest) opened rest :=
  ⟨_, _, .gap h (.nil _ _)⟩

theorem dropWhile_isSeparator (opened tokens : List Token) :
    Crosses opened tokens opened (tokens.dropWhile Token.isSeparator) := by
  induction tokens with
  | nil => exact refl _ _
  | cons t rest ih =>
    rw [List.dropWhile_cons]
    split
    · rename_i h
      exact (plain (Token.not_isOpener_of_isSeparator h) _ _).trans ih
    · exact refl _ _

end Crosses

/-! ### What the steps say about the next token -/

theorem Token.isKeyword_right {t : Token} (words : List Text) {words' : List Text}
    (h : t.isKeyword (words ++ words') = true) (hnot : ¬t.isKeyword words = true) :
    t.isKeyword words' = true := by
  obtain ⟨v, hv, hcontent⟩ := Token.isOneOf_iff.1 h
  rcases List.mem_append.1 hv with hv | hv
  · exact absurd (Token.isOneOf_iff.2 ⟨v, hv, hcontent⟩) hnot
  · exact Token.isOneOf_iff.2 ⟨v, hv, hcontent⟩

theorem Token.not_bracket_of_isKeyword {t : Token} {words : List Text}
    (h : t.isKeyword words = true) : t.isOpener = false ∧ t.isCloser = false := by
  obtain ⟨v, -, hcontent⟩ := Token.isOneOf_iff.1 h
  unfold Token.isOpener Token.isCloser Token.isPunct Token.isOneOf
  rw [hcontent]
  exact ⟨rfl, rfl⟩

theorem Token.not_bracket_of_isPunct {t : Token} {values : List Text} (h : t.isPunct values = true)
    (hvalues : ∀ v ∈ values, v ∉ ["(", "[", "\x7b", ")", "]", "\x7d"].map Text.ofString) :
    t.isOpener = false ∧ t.isCloser = false := by
  obtain ⟨v, hv, hcontent⟩ := Token.isOneOf_iff.1 h
  have hnot := hvalues v hv
  simp only [List.map_cons, List.map_nil, List.mem_cons, List.not_mem_nil, or_false, not_or] at hnot
  unfold Token.isOpener Token.isCloser Token.isPunct Token.isOneOf
  rw [hcontent]
  simp [hnot]

theorem Token.not_isOpener_of_isCloser {t : Token} (h : t.isCloser = true) : t.isOpener = false := by
  obtain ⟨v, hv, hcontent⟩ := Token.isOneOf_iff.1 h
  simp only [List.mem_cons, List.not_mem_nil, or_false] at hv
  unfold Token.isOpener Token.isPunct Token.isOneOf
  rw [hcontent]
  rcases hv with rfl | rfl | rfl <;> decide

theorem CommandDraft.opens_of_blockKind? {d : CommandDraft} {t : Token} {kind : BlockKind}
    (h : d.blockKind? t = some kind) : kind.opens t = true := by
  unfold CommandDraft.blockKind? at h
  split at h
  · obtain rfl := Option.some.inj h
    assumption
  · split at h
    · rename_i hbrace
      obtain rfl := Option.some.inj h
      simp only [Bool.and_eq_true] at hbrace
      exact hbrace.1.2
    · exact absurd h (by simp)

/-- What a step says about the token it takes, given the brackets open in the command. -/
def CommandStep.Fits (openers : List Token) : CommandStep → Prop
  | done => True
  | skip => True
  | block t kind => kind.opens t = true
  | conditional t => t.isKeyword ["if", "unless", "case"] = true
  | compound t => t.isKeyword compoundWords = true
  | modifier t => t.isKeyword lineWords = true
  | push t => t.isCloser = true → openers ≠ []

theorem CommandDraft.step_fits (d : CommandDraft) (tokens : List Token) :
    (d.step tokens).Fits d.openers := by
  cases tokens with
  | nil => exact trivial
  | cons t rest =>
    unfold CommandDraft.step
    dsimp only
    split
    · split <;> exact trivial
    · split
      · exact trivial
      · rename_i hends
        have hpush : t.isCloser = true → d.openers ≠ [] := by
          intro hcloser hopeners
          exact hends (by simp [CommandDraft.endsBefore, hcloser, hopeners])
        cases hkind : d.blockKind? t with
        | some kind => exact CommandDraft.opens_of_blockKind? hkind
        | none =>
          dsimp only
          split
          · rename_i hword
            split
            · split
              · assumption
              · have hrest : t.isKeyword ["begin", "while", "until"] = true :=
                  Token.isKeyword_right ["if", "unless", "case"] hword ‹_›
                exact Token.isOneOf_of_subset hrest (by decide)
            · split
              · exact Token.isOneOf_of_subset hword (by decide)
              · exact hpush
          · exact hpush

theorem branchStep_word {word : ConditionalWord} {tokens : List Token} {branchWord : BranchWord}
    {t : Token} (h : branchStep word tokens = .branch branchWord t) :
    t.isKeyword lineWords = true ∨ branchWord = .otherwise ∧ t.isKeyword ["else"] = true := by
  unfold branchStep at h
  split at h
  · exact absurd h BranchStep.noConfusion
  · rename_i u rest
    split at h
    · rename_i w hword
      injection h with _ hu
      subst hu
      refine .inl ?_
      unfold branchWord? at hword
      split at hword <;> split at hword
      · exact Token.isOneOf_of_subset ‹_› (by decide)
      · exact absurd hword (by simp)
      · exact Token.isOneOf_of_subset ‹_› (by decide)
      · exact absurd hword (by simp)
    · split at h
      · injection h with hw hu
        subst hu
        exact .inr ⟨hw.symm, ‹_›⟩
      · split at h <;> exact absurd h BranchStep.noConfusion

/-! ### Cursors -/

namespace Cursor

variable (c : Cursor) (opened : List Token)

theorem crosses_skipSeparators : Crosses opened c.rest opened c.skipSeparators.rest := by
  rw [rest_skipSeparators]
  exact .dropWhile_isSeparator _ _

theorem crosses_next {t : Token} (hhead : c.rest.head? = some t)
    (h : t.isOpener = false ∧ t.isCloser = false) : Crosses opened c.rest opened c.next.rest := by
  obtain ⟨rest, hrest⟩ := List.head?_eq_some_iff.1 hhead
  rw [rest_next, hrest]
  exact .plain h _ _

/-- A word and the rest of its line are passed without a check. -/
theorem crosses_line {t : Token} (hhead : c.rest.head? = some t) (h : t.isKeyword lineWords = true)
    (stopAtDo : Bool) : Crosses opened c.rest opened (c.next.line stopAtDo).2.rest := by
  obtain ⟨rest, hrest⟩ := List.head?_eq_some_iff.1 hhead
  have hgap := Crosses.gap (.line t stopAtDo rest h) opened
  rw [List.cons_append, List.take_append_drop] at hgap
  have hline : (c.next.line stopAtDo).2.rest = rest.drop (lineRun stopAtDo none 0 rest).2 := by
    show c.next.rest.drop (lineRun stopAtDo none 0 c.next.rest).2 = _
    rw [rest_next, hrest]
    rfl
  rw [hrest, hline]
  exact hgap

theorem crosses_params : Crosses opened c.rest opened c.params.2.rest := by
  unfold params
  split
  · exact .refl _ _
  · rename_i t rest hrest
    split
    · rename_i hbars
      exact c.crosses_next opened (by rw [hrest]; rfl)
        (Token.not_bracket_of_isPunct hbars (by decide))
    · split
      · rename_i hbar
        have hgap := Crosses.gap (.params t rest hbar) opened
        rw [List.cons_append, List.take_append_drop] at hgap
        dsimp only
        rw [rest_advance, hrest]
        exact hgap
      · exact .refl _ _

theorem crosses_branchHead {t : Token} {branchWord : BranchWord} (hhead : c.rest.head? = some t)
    (h : t.isKeyword lineWords = true ∨ branchWord = .otherwise ∧ t.isKeyword ["else"] = true) :
    Crosses opened c.rest opened (branchHead branchWord c.next).2.rest := by
  unfold branchHead
  split
  · refine c.crosses_next opened hhead ?_
    rcases h with h | h
    · exact Token.not_bracket_of_isKeyword h
    · exact Token.not_bracket_of_isKeyword h.2
  · rename_i hne
    exact c.crosses_line opened hhead (h.resolve_right fun h => hne h.1) false

end Cursor

namespace CommandDraft

/-- Taking a token of the head opens or closes what the draft says. -/
theorem crosses_push (d : CommandDraft) {c : Cursor} {t : Token} (opened : List Token)
    (hhead : c.rest.head? = some t) (h : t.isCloser = true → d.openers ≠ []) :
    Crosses (d.openers ++ opened) c.rest ((d.push t).openers ++ opened) c.next.rest := by
  obtain ⟨rest, hrest⟩ := List.head?_eq_some_iff.1 hhead
  rw [Cursor.rest_next, hrest]
  unfold push
  dsimp only
  split
  · exact .opener ‹_› _ _
  · rename_i hopener
    rw [Bool.not_eq_true] at hopener
    split
    · rename_i hcloser
      obtain ⟨o, more, hopeners⟩ := List.exists_cons_of_ne_nil (h hcloser)
      rw [hopeners]
      exact .closer hopener hcloser _ _ _
    · rename_i hcloser
      exact .plain ⟨hopener, by simpa using hcloser⟩ _ _

end CommandDraft

/-! ### What each call walks over -/

/-- A call that meets no problem walks over the tokens it reads, and leaves open what was open before it; a
command that is being read closes what is open in it. -/
def Reading.Matched : Reading → Prop
  | ⟨.statements _ c, p⟩ => p.problems = [] → ∀ opened, Crosses opened c.rest opened p.cursor.rest
  | ⟨.statement _ c, p⟩ => p.problems = [] → ∀ opened, Crosses opened c.rest opened p.cursor.rest
  | ⟨.block opener kind c, p⟩ =>
    kind.opens opener = true → p.problems = [] → ∀ opened, Crosses opened c.rest opened p.cursor.rest
  | ⟨.branches _ c, p⟩ => p.problems = [] → ∀ opened, Crosses opened c.rest opened p.cursor.rest
  | ⟨.conditional opener c, p⟩ =>
    opener.isKeyword ["if", "unless", "case"] = true → p.problems = [] →
      ∀ opened, Crosses opened c.rest opened p.cursor.rest
  | ⟨.compound opener c, p⟩ =>
    opener.isKeyword compoundWords = true → p.problems = [] →
      ∀ opened, Crosses opened c.rest opened p.cursor.rest
  | ⟨.command _ _ d c, p⟩ =>
    p.problems = [] → ∀ opened, Crosses (d.openers ++ opened) c.rest opened p.cursor.rest

/-- A body that is closed ends right before its closer. -/
theorem exists_closer_of_clean {src : TokenSource} {isCloser : Token → Bool} {opener : Token} {fault : Fault}
    {c : Cursor} {body : Parsed (List Statement)}
    (hbody : Reading.Matched ⟨.statements isCloser c, body⟩)
    (hclean : (closeBody src isCloser opener fault body).problems = []) :
    ∃ t rest, isCloser t = true ∧ (∀ opened, Crosses opened c.rest opened (t :: rest)) ∧
      (closeBody src isCloser opener fault body).cursor.rest = rest := by
  rcases closeBody_cases src isCloser opener fault body with ⟨t, hhead, hcloses, he⟩ | ⟨-, he⟩
  · rw [he] at hclean ⊢
    obtain ⟨rest, hrest⟩ := List.head?_eq_some_iff.1 hhead
    refine ⟨t, rest, hcloses, ?_, ?_⟩
    · rw [← hrest]
      exact hbody hclean
    · rw [Cursor.rest_next, hrest]
      rfl
  · rw [he] at hclean
    exact absurd hclean (by simp)

theorem CommandDraft.crosses_finish {src : TokenSource} {d : CommandDraft} {first : Token} {start : Nat}
    {c : Cursor} (h : (d.finish src first start c).problems = []) (opened : List Token) :
    Crosses (d.openers ++ opened) c.rest opened (d.finish src first start c).cursor.rest := by
  have hopeners := CommandDraft.openers_of_clean h
  rw [CommandDraft.cursor_finish _ _ _ _ hopeners, hopeners]
  exact .refl _ _

namespace ParserCall

variable {src : TokenSource}

theorem statements_matched (stop : Token → Bool) (c : Cursor) :
    (statements stop c).Keeps src Reading.Matched := by
  unfold Keeps
  rw [script]
  cases h : listStep stop c.skipSeparators.rest with
  | done => exact fun _ opened => c.crosses_skipSeparators opened
  | stray t => exact fun more hmore hclean => absurd hclean (List.cons_ne_nil _ _)
  | pass =>
    obtain ⟨t, rest, hrest, hword⟩ := listStep_pass h
    intro more hmore hclean opened
    have hnext := c.skipSeparators.crosses_next opened (by rw [hrest]; rfl)
      (Token.not_bracket_of_isKeyword hword)
    exact (c.crosses_skipSeparators opened).trans (hnext.trans (hmore.2 hclean opened))
  | statement t =>
    intro first hfirst more hmore hclean opened
    obtain ⟨hclean₁, hclean₂⟩ := List.append_eq_nil_iff.1 hclean
    exact (c.crosses_skipSeparators opened).trans
      ((hfirst.2 hclean₁ opened).trans (hmore.2 hclean₂ opened))

theorem statement_matched (t : Token) (c : Cursor) : (statement t c).Keeps src Reading.Matched := by
  unfold Keeps
  rw [script]
  split_ifs
  · exact fun p hp => hp.2 ‹_›
  · exact fun p hp => hp.2 ‹_›
  · exact fun p hp => hp.2

theorem block_matched {opener : Token} {kind : BlockKind} {c : Cursor} (hhead : c.rest.head? = some opener) :
    (block opener kind c).Keeps src Reading.Matched := by
  intro body hbody hopens hclean opened
  obtain ⟨t, rest, hcloses, hcross, hend⟩ := exists_closer_of_clean hbody.2 hclean
  dsimp only
  rw [hend]
  cases kind with
  | doEnd =>
    have hend' := Token.not_bracket_of_isKeyword (t := t) hcloses
    have hnext := c.crosses_next opened hhead (Token.not_bracket_of_isKeyword hopens)
    exact (hnext.trans (c.next.crosses_params opened)).trans ((hcross opened).trans (.plain hend' _ _))
  | brace =>
    -- the brace is open throughout the body
    have hopener : opener.isOpener = true := Token.isOneOf_of_subset hopens (by decide)
    have hcloser : t.isCloser = true := Token.isOneOf_of_subset hcloses (by decide)
    have hnext : Crosses opened c.rest (opener :: opened) c.next.rest := by
      obtain ⟨more, hmore⟩ := List.head?_eq_some_iff.1 hhead
      rw [Cursor.rest_next, hmore]
      exact .opener hopener _ _
    exact (hnext.trans (c.next.crosses_params _)).trans
      ((hcross _).trans (.closer (Token.not_isOpener_of_isCloser hcloser) hcloser _ _ _))

/-- A branch is its word with the rest of the line, its body and the branches after it. -/
theorem crosses_branch {word : ConditionalWord} {branchWord : BranchWord} {t : Token} {c : Cursor}
    {body : Parsed (List Statement)} {more : Parsed (List Branch × Option Token)}
    (hhead : c.rest.head? = some t)
    (hword : t.isKeyword lineWords = true ∨ branchWord = .otherwise ∧ t.isKeyword ["else"] = true)
    (hbody : Reading.Matched ⟨.statements (branchStop word branchWord) (branchHead branchWord c.next).2, body⟩)
    (hmore : Reading.Matched ⟨.branches word body.cursor, more⟩)
    (hclean : body.problems ++ more.problems = []) (opened : List Token) :
    Crosses opened c.rest opened more.cursor.rest := by
  obtain ⟨hclean₁, hclean₂⟩ := List.append_eq_nil_iff.1 hclean
  exact ((c.crosses_branchHead opened hhead hword).trans (hbody hclean₁ opened)).trans (hmore hclean₂ opened)

theorem branches_matched (word : ConditionalWord) (c : Cursor) :
    (branches word c).Keeps src Reading.Matched := by
  unfold Keeps
  rw [script]
  cases h : branchStep word c.skipSeparators.rest with
  | done => exact fun _ opened => c.crosses_skipSeparators opened
  | close t =>
    obtain ⟨rest, hrest, hend⟩ := branchStep_close h
    intro _ opened
    exact (c.crosses_skipSeparators opened).trans (c.skipSeparators.crosses_next opened (by rw [hrest]; rfl)
      (Token.not_bracket_of_isKeyword hend))
  | branch branchWord t =>
    obtain ⟨rest, hrest⟩ := branchStep_branch h
    intro body hbody more hmore hclean opened
    exact (c.crosses_skipSeparators opened).trans (crosses_branch (by rw [hrest]; rfl) (branchStep_word h)
      hbody.2 hmore.2 hclean opened)

theorem crosses_closeConditional {opener : Token} {start : Nat} {line : List Token} {c : Cursor}
    {read : Parsed (List Branch × Option Token)}
    (hread : read.problems = [] → ∀ opened, Crosses opened c.rest opened read.cursor.rest)
    (hclean : (closeConditional src opener start line read).problems = []) (opened : List Token) :
    Crosses opened c.rest opened (closeConditional src opener start line read).cursor.rest := by
  unfold closeConditional at hclean ⊢
  split at hclean
  · exact hread hclean opened
  · exact absurd hclean (by simp)

theorem conditional_matched {opener : Token} {c : Cursor} (hhead : c.rest.head? = some opener) :
    (conditional opener c).Keeps src Reading.Matched := by
  have hline : opener.isKeyword ["if", "unless", "case"] = true → opener.isKeyword lineWords = true :=
    fun hword => Token.isOneOf_of_subset hword (by decide)
  unfold Keeps
  rw [script]
  dsimp only
  split_ifs
  · intro read hread hword
    refine crosses_closeConditional fun hclean opened => ?_
    exact ((c.crosses_line opened hhead (hline hword) false).trans
      ((c.next.line false).2.crosses_skipSeparators opened)).trans (hread.2 hclean opened)
  · intro body hbody more hmore hword
    exact crosses_closeConditional (crosses_branch hhead (.inl (hline hword)) hbody.2 hmore.2)

theorem compound_matched {opener : Token} {c : Cursor} (hhead : c.rest.head? = some opener) :
    (compound opener c).Keeps src Reading.Matched := by
  intro body hbody hword hclean opened
  have hline : opener.isKeyword lineWords = true := Token.isOneOf_of_subset hword (by decide)
  obtain ⟨t, rest, hcloses, hcross, hend⟩ := exists_closer_of_clean hbody.2 hclean
  dsimp only
  rw [hend]
  exact (c.crosses_line opened hhead hline _).trans
    ((hcross opened).trans (.plain (Token.not_bracket_of_isKeyword hcloses) _ _))

theorem command_matched (first : Token) (start : Nat) (d : CommandDraft) (c : Cursor) :
    (command first start d c).Keeps src Reading.Matched := by
  have htoken : ∀ {t}, (d.step c.rest).token? = some t → c.rest.head? = some t := by
    intro t ht
    obtain ⟨⟨rest, hrest⟩, -⟩ := CommandDraft.step_token ht
    rw [hrest]
    rfl
  have hspec := d.step_fits c.rest
  unfold Keeps
  rw [script]
  cases hstep : d.step c.rest with
  | done => exact CommandDraft.crosses_finish
  | skip =>
    obtain ⟨t, rest, hrest, hsep, -⟩ := CommandDraft.step_skip hstep
    intro more hmore hclean opened
    exact (c.crosses_next _ (by rw [hrest]; rfl) (Token.not_isOpener_of_isSeparator hsep)).trans
      (hmore.2 hclean opened)
  | push t =>
    rw [hstep] at hspec
    intro more hmore hclean opened
    exact (d.crosses_push opened (htoken (by rw [hstep]; rfl)) hspec).trans (hmore.2 hclean opened)
  | modifier t =>
    rw [hstep] at hspec
    intro hclean opened
    have hfinish := CommandDraft.crosses_finish (d := d.addModifier t (c.next.line false).1) hclean opened
    exact (c.crosses_line _ (htoken (by rw [hstep]; rfl)) hspec false).trans hfinish
  -- what a nested statement leaves open is nothing, so the openers of the command stay
  | conditional t =>
    rw [hstep] at hspec
    intro nested hnested more hmore hclean opened
    obtain ⟨hclean₁, hclean₂⟩ := List.append_eq_nil_iff.1 hclean
    exact (hnested.2 hspec hclean₁ _).trans (hmore.2 hclean₂ opened)
  | compound t =>
    rw [hstep] at hspec
    intro nested hnested more hmore hclean opened
    obtain ⟨hclean₁, hclean₂⟩ := List.append_eq_nil_iff.1 hclean
    exact (hnested.2 hspec hclean₁ _).trans (hmore.2 hclean₂ opened)
  | block t kind =>
    rw [hstep] at hspec
    intro block hblock
    have hopeners := d.openers_addBlock block.value
    dsimp only
    split
    · intro more hmore hclean opened
      obtain ⟨hclean₁, hclean₂⟩ := List.append_eq_nil_iff.1 hclean
      exact (hblock.2 hspec hclean₁ _).trans (hopeners ▸ hmore.2 hclean₂ opened)
    · intro hclean opened
      obtain ⟨hclean₁, hclean₂⟩ := List.append_eq_nil_iff.1 hclean
      exact (hblock.2 hspec hclean₁ _).trans (hopeners ▸ CommandDraft.crosses_finish hclean₂ opened)

theorem keeps_matched {call : ParserCall} (hp : call.Placed src) : call.Keeps src Reading.Matched := by
  cases call with
  | statements stop c => exact statements_matched stop c
  | statement t c => exact statement_matched t c
  | block opener kind c => exact block_matched hp.2
  | branches word c => exact branches_matched word c
  | conditional opener c => exact conditional_matched hp.2
  | compound opener c => exact compound_matched hp.2
  | command first start d c => exact command_matched first start d c

end ParserCall

/-! ### Whole files -/

/-- When nothing is wrong with a file, its tokens are walked over to the end with nothing left open:
only what is passed unchecked may be badly nested, and only a closer may be of another kind than its
opener. Where neither is the case, the file is nested. -/
theorem brackets_of_clean_parse (text : Text) (h : (Program.ofText text).problems = []) :
    ∃ gaps pairs, Walks [] (Program.ofText text).tokens gaps pairs [] [] ∧
      ((∀ g ∈ gaps, WellNested g) → (∀ p ∈ pairs, p.1.closedBy p.2 = true) →
        WellNested (Program.ofText text).tokens) := by
  obtain ⟨-, hparsed⟩ := List.append_eq_nil_iff.1 h
  let src := TokenSource.ofText text
  obtain ⟨log, hends⟩ := src.exists_endsIn_parsed
  have hmatched := hends.satisfies (fun _ hp => ParserCall.keeps_matched hp) (src.holds_cursor 0)
  have hdone : listStep (fun _ => false) src.parsed.cursor.skipSeparators.rest = .done :=
    src.branched_parsed.2
  obtain ⟨gaps, pairs, hwalk⟩ := (hmatched hparsed []).trans (Cursor.crosses_skipSeparators _ [])
  rw [rest_of_listStep_done hdone] at hwalk
  refine ⟨gaps, pairs, hwalk, fun hgaps hpairs => ?_⟩
  obtain ⟨run, hrun, hnest⟩ := hwalk.nest hgaps hpairs
  rw [List.append_nil] at hrun
  rw [← hrun] at hnest
  exact hnest

/-- The condition of a modifier takes the rest of the file into a parenthesis that is never closed, and
nothing is said about it. -/
theorem unclosed_modifier_parses_clean :
    let p := Program.ofText "package 'x' if (a\nservice 'y' do\nend\n"
    p.problems = [] ∧ ¬WellNested p.tokens ∧
      ∃ gaps pairs, Walks [] p.tokens gaps pairs [] [] ∧
        ((∃ g ∈ gaps, ¬WellNested g) ∨ ∃ o ∈ pairs, ¬o.1.closedBy o.2 = true) := by
  intro p
  have hproblems : p.problems = [] := by decide +kernel
  have hnested : ¬WellNested p.tokens := by decide +kernel
  refine ⟨hproblems, hnested, ?_⟩
  obtain ⟨gaps, pairs, hwalk, hnest⟩ := brackets_of_clean_parse _ hproblems
  refine ⟨gaps, pairs, hwalk, ?_⟩
  by_contra hnone
  simp only [not_or, not_exists, not_and, not_not] at hnone
  exact hnested (hnest hnone.1 hnone.2)

-- a closer of another kind, a closer too many in a condition, and a bracket among parameters
example : ∀ text ∈ ["foo(]\n", "if x)\nend\n", "foo do |(|\nend\n"].map Text.ofString,
    (Program.ofText text).problems = [] ∧ ¬WellNested (Program.ofText text).tokens := by
  decide +kernel

end Cookbook
