import Cookbook.Proofs.Call
import Cookbook.Proofs.Statement.Prefix

/-!
Where a file may be cut. When nothing is wrong with a file, its brackets are balanced, its last token
ends a line and its last command is finished, then every statement of the file ends before that last
token. So a longer file is read as this one, all of it, and then the rest.

* `Command.isUnfinished` and `Balanced` say what may be left open without a problem;
* `lineRun_exhausted` is the reason for both: a line that runs into the end of the file has an open
  bracket or an unfinished end;
* `parseStatements_append` is the cut.
-/

namespace Cookbook

/-! ### What may be left open -/

/-- Whether the head or the condition of a command ends in a token that leaves the line unfinished. -/
def Command.isUnfinished (c : Command) : Bool :=
  c.head.getLast?.any Token.continuesLine ||
    (c.modifier.bind fun m => m.condition.getLast?).any Token.continuesLine

/-- Whether the last statement of a list is a command that is unfinished. -/
def endsUnfinished (body : List Statement) : Bool :=
  match body.getLast? with
  | some (.command c) => c.isUnfinished
  | _ => false

/-- The brackets of a run are balanced: no closer stands before its opener, and none is missing. -/
def Balanced (run : List Token) : Prop :=
  (∀ n, 0 ≤ (run.take n).foldl depthAfter 0) ∧ run.foldl depthAfter 0 = 0

theorem balanced_iff {run : List Token} :
    Balanced run ↔ (∀ n ≤ run.length, 0 ≤ (run.take n).foldl depthAfter 0) ∧
      run.foldl depthAfter 0 = 0 := by
  refine ⟨fun h => ⟨fun n _ => h.1 n, h.2⟩, fun h => ⟨fun n => ?_, h.2⟩⟩
  rcases Nat.le_total n run.length with hn | hn
  · exact h.1 n hn
  · rw [List.take_of_length_le hn]
    exact Int.le_of_eq h.2.symm

instance instDecidableBalanced (run : List Token) : Decidable (Balanced run) :=
  decidable_of_iff _ balanced_iff.symm

/-- The last token of a source, if there is one, ends a line. -/
def TokenSource.EndsLine (src : TokenSource) : Prop := ∀ t, src.tokens.getLast? = some t → t.isNewline = true

theorem Token.not_isOpener_of_isSeparator {t : Token} (h : t.isSeparator = true) :
    t.isOpener = false ∧ t.isCloser = false := by
  unfold Token.isSeparator at h
  rw [Bool.or_eq_true] at h
  rcases h with h | h
  · exact ⟨Token.not_isPunct_of_isNewline h _, Token.not_isPunct_of_isNewline h _⟩
  · obtain ⟨v, hv, hcontent⟩ := Token.isOneOf_iff.1 h
    simp only [List.mem_singleton] at hv
    subst hv
    unfold Token.isOpener Token.isCloser Token.isPunct Token.isOneOf
    rw [hcontent]
    decide

theorem Token.isSeparator_of_isNewline {t : Token} (h : t.isNewline = true) : t.isSeparator = true := by
  simp [Token.isSeparator, h]

/-- A clamped depth that starts below the true one stays below it. -/
theorem lineDepth_le {depth : Nat} {total : Int} {t : Token} (h : (depth : Int) ≤ total)
    (hpos : 0 ≤ depthAfter total t) : (lineDepth depth t : Int) ≤ depthAfter total t := by
  unfold lineDepth depthAfter at *
  split
  · rename_i ho
    simp only [ho, if_true] at hpos ⊢
    omega
  · rename_i ho
    simp only [ho] at hpos ⊢
    split
    · rename_i hc
      simp only [hc, if_true] at hpos ⊢
      simp at hpos ⊢
      omega
    · rename_i hc
      simpa [hc] using h

/-- What is passed over within a line is no bracket; outside brackets it follows a token that leaves
the line unfinished. -/
theorem lineStep_skip {stopAtDo : Bool} {last : Option Token} {depth : Nat} {t : Token}
    (h : lineStep stopAtDo last depth t = .skip) :
    t.isSeparator = true ∧ (depth = 0 → last.any Token.continuesLine = true) := by
  unfold lineStep at h
  split at h
  · rename_i hsep
    split at h
    · rename_i hlast
      exact ⟨hsep.2, fun _ => hlast⟩
    · exact absurd h LineStep.noConfusion
  · rename_i hsep
    split at h
    · exact absurd h LineStep.noConfusion
    · split at h
      · rename_i hnewline
        have hs := Token.isSeparator_of_isNewline hnewline
        exact ⟨hs, fun h0 => absurd ⟨h0, hs⟩ hsep⟩
      · exact absurd h LineStep.noConfusion

theorem lineStep_of_isNewline {stopAtDo : Bool} {last : Option Token} {depth : Nat} {t : Token}
    (h : t.isNewline = true) :
    lineStep stopAtDo last depth t = .skip ∨ lineStep stopAtDo last depth t = .stop := by
  have hs := Token.isSeparator_of_isNewline h
  have hc : t.content = .newline := by simpa [Token.isNewline] using h
  have hk : ∀ words, t.isKeyword words = false := fun words => by
    simp [Token.isKeyword, Token.isOneOf, hc]
  unfold lineStep
  split
  · split <;> simp
  · simp [hk]

/-- A line that runs into the end of the file leaves a bracket open or is unfinished; where brackets
are balanced, it is unfinished. -/
theorem lineRun_exhausted {stopAtDo : Bool} {tokens : List Token} {last : Option Token} {depth : Nat}
    {total : Int} (hdepth : (depth : Int) ≤ total)
    (hpos : ∀ n, 0 ≤ (tokens.take n).foldl depthAfter total)
    (htotal : tokens.foldl depthAfter total = 0)
    (hlast : ∃ t, tokens.getLast? = some t ∧ t.isNewline = true)
    (hall : (lineRun stopAtDo last depth tokens).2 = tokens.length) :
    (((lineRun stopAtDo last depth tokens).1.getLast?).or last).any Token.continuesLine = true := by
  induction tokens generalizing last depth total with
  | nil =>
    obtain ⟨t, ht, -⟩ := hlast
    simp at ht
  | cons t rest ih =>
    have hrest : rest ≠ [] → ∃ u, rest.getLast? = some u ∧ u.isNewline = true := by
      intro hne
      obtain ⟨u, hu, hn⟩ := hlast
      rw [List.getLast?_cons_of_ne_nil hne] at hu
      exact ⟨u, hu, hn⟩
    have hpos' : ∀ n, 0 ≤ (rest.take n).foldl depthAfter (depthAfter total t) :=
      fun n => by simpa using hpos (n + 1)
    -- the last token ends a line, so the line neither takes it nor closes at it
    have hend : rest = [] → lineStep stopAtDo last depth t = .skip ∨
        lineStep stopAtDo last depth t = .stop := by
      rintro rfl
      obtain ⟨u, hu, hn⟩ := hlast
      simp only [List.getLast?_singleton, Option.some.injEq] at hu
      exact lineStep_of_isNewline (by rwa [hu])
    rw [lineRun_cons] at hall ⊢
    cases hstep : lineStep stopAtDo last depth t with
    | stop => simp [hstep] at hall
    | close =>
      rw [hstep] at hall
      have hnil : rest = [] := by simpa using hall.symm
      exact absurd (hend hnil) (by simp [hstep])
    | skip =>
      rw [hstep] at hall
      obtain ⟨hsep, hcont⟩ := lineStep_skip hstep
      obtain ⟨ho, hc⟩ := Token.not_isOpener_of_isSeparator hsep
      rw [List.foldl_cons, depthAfter_other ho hc] at htotal
      simp only [depthAfter_other ho hc] at hpos'
      by_cases hnil : rest = []
      · subst hnil
        have hzero : depth = 0 := by
          simp only [List.foldl_nil] at htotal
          omega
        simpa [lineRun] using hcont hzero
      · exact ih hdepth hpos' htotal (hrest hnil) (by simpa using hall)
    | take =>
      rw [hstep] at hall
      have hnil : rest ≠ [] := fun hnil => absurd (hend hnil) (by simp [hstep])
      have hle := lineDepth_le hdepth (by simpa using hpos' 0)
      have := ih hle hpos' htotal (hrest hnil) (by simpa using hall)
      -- the token is the last one taken when nothing behind it is
      dsimp only
      rw [List.getLast?_cons]
      cases hrun : (lineRun stopAtDo (some t) (lineDepth depth t) rest).1.getLast? with
      | none => simpa [hrun] using this
      | some u => simpa [hrun] using this

/-! ### Every statement ends before the last token -/

theorem Token.not_isNewline_of_isOneOf {t : Token} {kind : NameKind} {values : List Text}
    (h : t.isOneOf kind values = true) : t.isNewline = false := by
  obtain ⟨v, -, hcontent⟩ := Token.isOneOf_iff.1 h
  simp [Token.isNewline, hcontent]

theorem BlockKind.not_isNewline_of_closes {kind : BlockKind} {t : Token}
    (h : kind.closes t = true) : t.isNewline = false := by
  cases kind <;> exact Token.not_isNewline_of_isOneOf h

section Ends

variable {src : TokenSource} (hline : src.EndsLine)

include hline

theorem TokenSource.Holds.next_lt {c : Cursor} {t : Token} {rest : List Token} (hc : src.Holds c)
    (hrest : c.rest = t :: rest) (ht : t.isNewline = false) : c.next.index < src.size := by
  have hlt := hc.index_lt hrest
  by_contra hge
  have hsize : src.tokens.length = c.index + 1 := by
    unfold TokenSource.size at hlt hge
    simp only [Cursor.index_next] at hge
    omega
  have hlast : src.tokens.getLast? = some t := by
    have hrest' : src.tokens.drop c.index = t :: rest := by
      rw [← hrest]
      exact hc.symm
    rw [List.getLast?_eq_getElem?, hsize, Nat.add_sub_cancel, ← List.head?_drop, hrest']
    rfl
  rw [hline t hlast] at ht
  exact Bool.noConfusion ht

/-- A body with which nothing is wrong ends before the last token, as its closer ends no line. -/
theorem closeBody_lt {isCloser : Token → Bool} {opener : Token} {fault : Fault}
    {p : Parsed (List Statement)} (hp : src.Holds p.cursor)
    (hcloser : ∀ t, isCloser t = true → t.isNewline = false)
    (h : (closeBody src isCloser opener fault p).problems = []) :
    (closeBody src isCloser opener fault p).cursor.index < src.size := by
  rcases closeBody_cases src isCloser opener fault p with ⟨t, hhead, hcloses, he⟩ | ⟨-, he⟩
  · obtain ⟨rest, hrest⟩ := List.head?_eq_some_iff.1 hhead
    rw [he]
    exact hp.next_lt hline hrest (hcloser t hcloses)
  · rw [he] at h
    exact absurd h (by simp)

theorem parseBlock_lt {fuel : Nat} {t : Token} {kind : BlockKind} {c : Cursor} {rest : List Token}
    (hc : src.Holds c) (hrest : c.rest = t :: rest) (ht : t.isNewline = false)
    (h : (parseBlock src fuel t kind c).problems = []) :
    (parseBlock src fuel t kind c).cursor.index < src.size := by
  cases fuel with
  | zero =>
    rw [parseBlock]
    exact hc.next_lt hline hrest ht
  | succ fuel =>
    rw [parseBlock_succ] at h ⊢
    have hend := ((progress src fuel).statements kind.closes _ hc.next.params).1
    exact closeBody_lt hline hend.1 (fun _ => BlockKind.not_isNewline_of_closes) h

theorem parseCompound_lt {fuel : Nat} {t : Token} {c : Cursor} {rest : List Token}
    (hc : src.Holds c) (hrest : c.rest = t :: rest) (ht : t.isNewline = false)
    (h : (parseCompound src fuel t c).problems = []) :
    (parseCompound src fuel t c).cursor.index < src.size := by
  cases fuel with
  | zero =>
    rw [parseCompound]
    exact hc.next_lt hline hrest ht
  | succ fuel =>
    rw [parseCompound_succ] at h ⊢
    have hend := ((progress src fuel).statements (·.isKeyword ["end"]) _
      (hc.next.line (isLoopWord t.text))).1
    exact closeBody_lt hline hend.1 (fun _ => Token.not_isNewline_of_isOneOf) h

theorem parseBranches_lt {fuel : Nat} {word : ConditionalWord} {c : Cursor} (hc : src.Holds c)
    (h : (parseBranches src fuel word c).value.2 ≠ none) :
    (parseBranches src fuel word c).cursor.index < src.size := by
  induction fuel generalizing c with
  | zero =>
    rw [parseBranches] at h
    exact absurd rfl h
  | succ fuel ih =>
    have hs := hc.skipSeparators
    rw [parseBranches_succ] at h ⊢
    cases hstep : branchStep word c.skipSeparators.rest with
    | done =>
      rw [hstep] at h
      exact absurd rfl h
    | close t =>
      obtain ⟨rest, hrest, hend⟩ := branchStep_close hstep
      exact hs.next_lt hline hrest (Token.not_isNewline_of_isOneOf hend)
    | branch branchWord t =>
      rw [hstep] at h
      have hbody := ((progress src fuel).statements (branchStop word branchWord) _
        (hs.next.branchHead branchWord)).1
      exact ih hbody.1 h

theorem parseConditional_lt {fuel : Nat} {t : Token} {c : Cursor} {rest : List Token}
    (hc : src.Holds c) (hrest : c.rest = t :: rest) (ht : t.isNewline = false)
    (h : (parseConditional src fuel t c).problems = []) :
    (parseConditional src fuel t c).cursor.index < src.size := by
  cases fuel with
  | zero =>
    rw [parseConditional]
    exact hc.next_lt hline hrest ht
  | succ fuel =>
    rw [parseConditional_succ] at h ⊢
    unfold closeConditional at h ⊢
    split at h
    · rename_i u hcloser
      show (parseAllBranches src fuel t c.next).cursor.index < src.size
      unfold parseAllBranches at hcloser ⊢
      split
      · rename_i hword
        rw [if_pos hword] at hcloser
        exact parseBranches_lt hline (hc.next.line false).skipSeparators (by simp [hcloser])
      · rename_i hword
        rw [if_neg hword] at hcloser
        have hbody := ((progress src fuel).statements
          (branchStop (conditionalWord t) (firstBranchWord (conditionalWord t))) _
          (hc.next.branchHead (firstBranchWord (conditionalWord t)))).1
        refine parseBranches_lt hline hbody.1 ?_
        intro hnone
        exact absurd (hcloser.symm.trans hnone) (by simp)
    · exact absurd h (by simp)

/-- A line within balanced brackets that is finished ends before the last token. -/
theorem Cursor.line_lt (hbal : Balanced src.tokens) {c : Cursor} {stopAtDo : Bool}
    (hc : src.Holds c) (hlt : c.index < src.size)
    (h : (c.line stopAtDo).1.getLast?.any Token.continuesLine = false) :
    (c.line stopAtDo).2.index < src.size := by
  have hlen := hc.length_rest
  have hle := lineRun_le stopAtDo none 0 c.rest
  by_contra hge
  have hall : (lineRun stopAtDo none 0 c.rest).2 = c.rest.length := by
    have : ¬c.index + (lineRun stopAtDo none 0 c.rest).2 < src.size := hge
    omega
  have hsplit : src.tokens = src.tokens.take c.index ++ c.rest := by
    rw [show c.rest = src.tokens.drop c.index from hc, List.take_append_drop]
  have htotal : c.rest.foldl depthAfter ((src.tokens.take c.index).foldl depthAfter 0) = 0 := by
    rw [← List.foldl_append, ← hsplit]
    exact hbal.2
  have hpos : ∀ n, 0 ≤ (c.rest.take n).foldl depthAfter ((src.tokens.take c.index).foldl depthAfter 0) := by
    intro n
    have := hbal.1 (c.index + n)
    rwa [List.take_add, List.foldl_append, ← show c.rest = src.tokens.drop c.index from hc] at this
  have hlast : ∃ t, c.rest.getLast? = some t ∧ t.isNewline = true := by
    obtain ⟨t, ht⟩ : ∃ t, c.rest.getLast? = some t :=
      Option.ne_none_iff_exists'.1 (by simpa using hc.rest_ne_nil hlt)
    refine ⟨t, ht, hline t ?_⟩
    rw [hsplit, List.getLast?_append, ht]
    rfl
  have hzero : ((0 : Nat) : Int) ≤ (src.tokens.take c.index).foldl depthAfter 0 := hbal.1 c.index
  have := lineRun_exhausted hzero hpos htotal hlast hall
  rw [Option.or_none] at this
  exact absurd (this.symm.trans h) Bool.noConfusion

/-- What keeps a command from ending with the file: a token ahead, an open bracket, or an unfinished
head. -/
def CommandDraft.GoesOn (src : TokenSource) (d : CommandDraft) (c : Cursor) : Prop :=
  c.index < src.size ∨ d.openers ≠ [] ∨ d.head.head?.any Token.continuesLine = true

omit hline in
/-- A command that is finished where it cannot end with the file ends before the last token. -/
theorem CommandDraft.finish_lt {d : CommandDraft} {first : Token} {start : Nat} {c : Cursor}
    (hgo : d.GoesOn src c) (h : (d.finish src first start c).problems = [])
    (hfin : (d.finish src first start c).value.isUnfinished = false) :
    (d.finish src first start c).cursor.index < src.size := by
  have hopen := CommandDraft.openers_of_clean h
  rw [CommandDraft.cursor_finish _ _ _ _ hopen]
  rcases hgo with hlt | hne | hcont
  · exact hlt
  · exact absurd hopen hne
  · unfold CommandDraft.finish at hfin
    rw [hopen] at hfin
    simp [Command.isUnfinished, hcont] at hfin

/-- A finished command with which nothing is wrong ends before the last token. -/
theorem parseCommand_lt (hbal : Balanced src.tokens) {fuel : Nat} {first : Token} {start : Nat}
    {d : CommandDraft} {c : Cursor} (hc : src.Holds c) (hgo : d.GoesOn src c)
    (h : (parseCommand src fuel first start d c).problems = [])
    (hfin : (parseCommand src fuel first start d c).value.isUnfinished = false) :
    (parseCommand src fuel first start d c).cursor.index < src.size := by
  induction fuel generalizing d c with
  | zero =>
    rw [parseCommand] at h hfin ⊢
    exact CommandDraft.finish_lt hgo h hfin
  | succ fuel ih =>
    have hp := progress src fuel
    -- a step that takes a token stands at one that ends no line
    have htoken : ∀ {t}, (d.step c.rest).token? = some t →
        ∃ rest, c.rest = t :: rest ∧ t.isNewline = false := by
      intro t ht
      obtain ⟨⟨rest, hrest⟩, hsep⟩ := CommandDraft.step_token ht
      exact ⟨rest, hrest, Token.not_isNewline_of_not_isSeparator hsep⟩
    rw [parseCommand_succ] at h hfin ⊢
    cases hstep : d.step c.rest with
    | done =>
      rw [hstep] at h hfin
      exact CommandDraft.finish_lt hgo h hfin
    | skip =>
      rw [hstep] at h hfin
      obtain ⟨t, rest, hrest, -, hpast⟩ := CommandDraft.step_skip hstep
      refine ih hc.next ?_ h hfin
      simp only [CommandDraft.continuesPast, Bool.or_eq_true, Bool.not_eq_true',
        List.isEmpty_eq_false_iff] at hpast
      rcases hpast with (hopen | hcont) | hdot
      · exact .inr (.inl hopen)
      · exact .inr (.inr hcont)
      · left
        have hnext : c.next.rest = rest := by simp [hrest]
        cases rest with
        | nil => simp at hdot
        | cons u more => exact hc.next.index_lt hnext
    | push t =>
      rw [hstep] at h hfin
      obtain ⟨rest, hrest, hnewline⟩ := htoken (by rw [hstep]; rfl)
      exact ih hc.next (.inl (hc.next_lt hline hrest hnewline)) h hfin
    | modifier t =>
      rw [hstep] at h hfin
      obtain ⟨rest, hrest, hnewline⟩ := htoken (by rw [hstep]; rfl)
      have hopen := CommandDraft.openers_of_clean h
      dsimp only at hfin ⊢
      rw [CommandDraft.cursor_finish _ _ _ _ hopen]
      refine Cursor.line_lt hline hbal hc.next (hc.next_lt hline hrest hnewline) ?_
      unfold CommandDraft.finish at hfin
      rw [hopen] at hfin
      simp only [Command.isUnfinished, Bool.or_eq_false_iff] at hfin
      exact hfin.2
    | conditional t =>
      rw [hstep] at h hfin
      obtain ⟨rest, hrest, hnewline⟩ := htoken (by rw [hstep]; rfl)
      obtain ⟨hprob₁, hprob₂⟩ := List.append_eq_nil_iff.1 h
      exact ih (hp.conditional t c hc).1.1
        (.inl (parseConditional_lt hline hc hrest hnewline hprob₁)) hprob₂ hfin
    | compound t =>
      rw [hstep] at h hfin
      obtain ⟨rest, hrest, hnewline⟩ := htoken (by rw [hstep]; rfl)
      obtain ⟨hprob₁, hprob₂⟩ := List.append_eq_nil_iff.1 h
      exact ih (hp.compound t c hc).1.1
        (.inl (parseCompound_lt hline hc hrest hnewline hprob₁)) hprob₂ hfin
    | block t kind =>
      rw [hstep] at h hfin
      obtain ⟨rest, hrest, hnewline⟩ := htoken (by rw [hstep]; rfl)
      dsimp only at h hfin ⊢
      unfold parseAfterBlock at h hfin ⊢
      cases hcloser : (parseBlock src fuel t kind c).value.closer with
      | some u =>
        rw [hcloser] at h hfin
        obtain ⟨hprob₁, hprob₂⟩ := List.append_eq_nil_iff.1 h
        exact ih (hp.block t kind c hc).1
          (.inl (parseBlock_lt hline hc hrest hnewline hprob₁)) hprob₂ hfin
      | none =>
        rw [hcloser] at h hfin
        obtain ⟨hprob₁, hprob₂⟩ := List.append_eq_nil_iff.1 h
        exact CommandDraft.finish_lt
          (.inl (parseBlock_lt hline hc hrest hnewline hprob₁)) hprob₂ hfin

/-- A statement with which nothing is wrong ends before the last token, unless it is a command that
is unfinished. -/
theorem parseStatement_inside (hbal : Balanced src.tokens) {fuel : Nat} {t : Token} {c : Cursor}
    {rest : List Token} (hc : src.Holds c) (hrest : c.rest = t :: rest) (ht : t.isNewline = false)
    (h : (parseStatement src fuel t c).problems = [])
    (hfin : endsUnfinished [(parseStatement src fuel t c).value] = false) :
    (parseStatement src fuel t c).Inside src := by
  refine ⟨h, ?_⟩
  cases fuel with
  | zero =>
    rw [parseStatement]
    exact hc.next_lt hline hrest ht
  | succ fuel =>
    rw [parseStatement_succ] at h hfin ⊢
    split
    · rename_i hword
      rw [if_pos hword] at h
      exact parseConditional_lt hline hc hrest ht h
    · rename_i hword
      rw [if_neg hword] at h hfin
      split
      · rename_i hcompound
        rw [if_pos hcompound] at h
        exact parseCompound_lt hline hc hrest ht h
      · rename_i hcompound
        rw [if_neg hcompound] at h hfin
        exact parseCommand_lt hline hbal hc (.inl (hc.index_lt hrest)) h hfin

end Ends

/-! ### The cut -/

theorem parseStatements_nil {src : TokenSource} (fuel : Nat) (stop : Token → Bool) {c : Cursor}
    (hc : src.Holds c) (h : src.size ≤ c.index) : (parseStatements src fuel stop c).value = [] := by
  cases fuel with
  | zero => rfl
  | succ fuel =>
    have hnil : c.skipSeparators.rest = [] := by
      have hlen := hc.skipSeparators.length_rest
      have hle := c.le_index_skipSeparators
      exact List.length_eq_zero_iff.1 (by omega)
    rw [parseStatements_succ, hnil]
    rfl

/-- The last of some statements is the last of those after the first. -/
theorem endsUnfinished_tail {s : Statement} {body : List Statement}
    (h : endsUnfinished (s :: body) = false) : endsUnfinished body = false := by
  cases body with
  | nil => rfl
  | cons next rest =>
    unfold endsUnfinished at h ⊢
    rwa [List.getLast?_cons_cons] at h

/-- Each of some statements with which nothing is wrong ends before the last token, if the last of
them is not unfinished. -/
theorem parseStatement_inside_of_list {src : TokenSource} (hline : src.EndsLine)
    (hbal : Balanced src.tokens) {fuel : Nat} {stop : Token → Bool} {t : Token} {c : Cursor}
    {rest : List Token} (hc : src.Holds c) (hrest : c.rest = t :: rest) (ht : t.isNewline = false)
    (h : (parseStatement src fuel t c).problems = [])
    (hfin : endsUnfinished ((parseStatement src fuel t c).value ::
      (parseStatements src fuel stop (parseStatement src fuel t c).cursor).value) = false) :
    (parseStatement src fuel t c).Inside src := by
  by_cases hlt : (parseStatement src fuel t c).cursor.index < src.size
  · exact ⟨h, hlt⟩
  · -- a statement that ends with the file is the last
    have hholds := ((progress src fuel).statement t c hc).1.1
    rw [parseStatements_nil fuel stop hholds (Nat.not_lt.1 hlt)] at hfin
    exact parseStatement_inside hline hbal hc hrest ht h hfin

section Cut

variable {src src' : TokenSource} {tail : List Token} (hsrc : src'.Continues src tail)

include hsrc

theorem TokenSource.Continues.left_le (index : Nat) : src.left index ≤ src'.left index := by
  have : src'.size = src.size + tail.length := by
    unfold TokenSource.size
    rw [hsrc.tokens, List.length_append]
  unfold TokenSource.left
  omega

/-- Where only separators are left, a longer file goes on with what was put after. -/
theorem TokenSource.Continues.skipSeparators_end {c : Cursor} (hc : src.Holds c)
    (hle : c.index ≤ src.size) (h : c.skipSeparators.rest = []) :
    (c.append tail).skipSeparators = (src'.cursor src.size).skipSeparators := by
  have hlen := hc.length_rest
  rw [Cursor.rest_skipSeparators] at h
  have hall : c.rest.takeWhile Token.isSeparator = c.rest := by
    have := List.takeWhile_append_dropWhile (p := Token.isSeparator) (l := c.rest)
    rwa [h, List.append_nil] at this
  have hrest : (src'.cursor src.size).rest = tail := by
    show src'.tokens.drop src.size = tail
    rw [hsrc.tokens]
    exact List.drop_left
  have htake : ((c.rest ++ tail).takeWhile Token.isSeparator).length =
      c.rest.length + (tail.takeWhile Token.isSeparator).length := by
    rw [List.takeWhile_append, if_pos (by rw [hall]), List.length_append]
  unfold Cursor.skipSeparators
  rw [Cursor.rest_append, hrest, htake]
  unfold Cursor.advance
  rw [hrest, Cursor.rest_append, Cursor.index_append, ← List.drop_drop, List.drop_left]
  show (⟨_, _⟩ : Cursor) = ⟨src.size + _, _⟩
  congr 1
  omega

/-- A longer file is read as its first part, all of it, and then the rest. -/
theorem parseStatements_append (hline : src.EndsLine) (hbal : Balanced src.tokens) {fuel : Nat}
    {c : Cursor} (hc : src.Holds c) (hle : c.index ≤ src.size)
    (hfuel : 6 * src'.left c.index + 4 ≤ fuel)
    (h : (parseStatements src fuel (fun _ => false) c).problems = [])
    (hfin : endsUnfinished (parseStatements src fuel (fun _ => false) c).value = false) :
    parseStatements src' fuel (fun _ => false) (c.append tail) =
      let more := parseStatements src' fuel (fun _ => false) (src'.cursor src.size)
      ⟨(parseStatements src fuel (fun _ => false) c).value ++ more.value, more.cursor,
        more.problems⟩ := by
  induction fuel generalizing c with
  | zero => omega
  | succ fuel ih =>
    have hs := hc.skipSeparators
    have hsle := c.le_index_skipSeparators
    -- the rest of the longer file needs no more fuel than any call before it
    have hmore : c.index < src.size →
        parseStatements src' (fuel + 1) (fun _ => false) (src'.cursor src.size) =
          parseStatements src' fuel (fun _ => false) (src'.cursor src.size) := by
      intro hlt
      refine parseStatements_of_le (src'.holds_cursor _) ?_ (Nat.le_succ _)
      have : src'.left (src'.cursor src.size).index + 1 ≤ src'.left c.index := by
        have := hsrc.left_le c.index
        unfold TokenSource.left at *
        show src'.size + 1 - src.size + 1 ≤ _
        omega
      omega
    have hdrop : ∀ {j}, c.index < src.size → c.index + 1 ≤ j → 6 * src'.left j + 4 ≤ fuel := by
      intro j hlt hj
      have := hsrc.left_le c.index
      unfold TokenSource.left at *
      omega
    rw [parseStatements_succ] at h hfin ⊢
    rw [parseStatements_succ src]
    cases hstep : listStep (fun _ => false) c.skipSeparators.rest with
    | done =>
      have hnil := rest_of_listStep_done hstep
      rw [hsrc.skipSeparators_end hc hle hnil]
      dsimp only
      rw [List.nil_append]
      exact (parseStatements_succ _ _ _ _).symm
    | stray t =>
      rw [hstep] at h
      exact absurd h (List.cons_ne_nil _ _)
    | pass =>
      obtain ⟨t, rest, hrest⟩ := listStep_ne_done hstep ListStep.noConfusion
      have hne : c.skipSeparators.rest ≠ [] := hrest ▸ List.cons_ne_nil t rest
      have hlt := hs.index_lt hrest
      rw [hstep] at h hfin
      rw [Cursor.skipSeparators_append tail hne, Cursor.rest_append, listStep_append hne, hstep,
        hmore (hsle.trans_lt hlt)]
      dsimp only
      rw [Cursor.next_append tail hne]
      exact ih hs.next hlt (hdrop (hsle.trans_lt hlt) (Nat.succ_le_succ hsle)) h hfin
    | statement t =>
      obtain ⟨rest, hrest, hstarts⟩ := c.startsStatement_of_listStep hstep
      have hne : c.skipSeparators.rest ≠ [] := hrest ▸ List.cons_ne_nil t rest
      have hlt := hs.index_lt hrest
      have hnewline : t.isNewline = false :=
        Token.not_isNewline_of_not_isSeparator (c.not_isSeparator_of_skipSeparators hrest)
      rw [hstep] at h hfin
      obtain ⟨hprob₁, hprob₂⟩ := List.append_eq_nil_iff.1 h
      have hend : c.skipSeparators.index + 1 ≤
          (parseStatement src fuel t c.skipSeparators).cursor.index := by
        obtain ⟨f, rfl⟩ : ∃ f, fuel = f + 2 := ⟨fuel - 2, by omega⟩
        exact parseStatement_lt f hs (hrest ▸ rfl) hstarts
      have hholds := ((progress src fuel).statement t c.skipSeparators hs).1.1
      have hin := parseStatement_inside_of_list hline hbal hs hrest hnewline hprob₁ hfin
      rw [Cursor.skipSeparators_append tail hne, Cursor.rest_append, listStep_append hne, hstep,
        hmore (hsle.trans_lt hlt)]
      dsimp only
      rw [(prefixed hsrc fuel).statement t _ hs hin]
      simp only [Parsed.value_append, Parsed.cursor_append, Parsed.problems_append]
      rw [ih hholds hin.2.le (hdrop (hsle.trans_lt hlt) ((Nat.succ_le_succ hsle).trans hend))
        hprob₂ (endsUnfinished_tail hfin), hprob₁]
      rfl

end Cut

end Cookbook
