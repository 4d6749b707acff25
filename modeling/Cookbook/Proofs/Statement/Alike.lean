import Cookbook.Proofs.Statement.Prefix
import Cookbook.Proofs.Statement.Relabel

/-!
What is read does not depend on where the tokens stand. Only when something was left open does the
parser ask for the lines of a file; as long as nothing is wrong, two runs of tokens that are spelled
alike give statements that are the same up to their places, whatever stands before and around them.

* `Statement.placeless` forgets the places in a statement;
* `Cursor.Alike n` says that two cursors have tokens before them that are spelled alike, the second one
  `n` tokens further right;
* `Alike src src' n fuel` says this of each call, `alike` proves it, by induction on the fuel of both files.
-/

namespace Cookbook

/-! ### Statements without their places -/

def Extent.nowhere : Extent := ⟨0, 0, 0⟩

def Modifier.placeless (m : Modifier) : Modifier := ⟨m.word, m.condition.map Token.placeless, 0⟩

mutual

def Statement.placeless : Statement → Statement
  | .command c => .command c.placeless
  | .conditional c => .conditional c.placeless
  | .compound c => .compound c.placeless

def Command.placeless : Command → Command
  | ⟨_, head, block, innerBlocks, modifier⟩ =>
    ⟨.nowhere, head.map Token.placeless,
      match block with
        | some b => some b.placeless
        | none => none,
      placelessBlocks innerBlocks, modifier.map Modifier.placeless⟩

def Block.placeless : Block → Block
  | ⟨kind, opener, closer, params, body⟩ =>
    ⟨kind, opener.placeless, closer.map Token.placeless, params, placelessList body⟩

def Conditional.placeless : Conditional → Conditional
  | ⟨_, word, subject, branches, opener, closer⟩ =>
    ⟨.nowhere, word, subject.map Token.placeless, placelessBranches branches, opener.placeless,
      closer.map Token.placeless⟩

def Branch.placeless : Branch → Branch
  | ⟨word, condition, body, _⟩ => ⟨word, condition.map Token.placeless, placelessList body, 0⟩

def Compound.placeless : Compound → Compound
  | ⟨_, head, body, opener, closer⟩ =>
    ⟨.nowhere, head.map Token.placeless, placelessList body, opener.placeless,
      closer.map Token.placeless⟩

def placelessList : List Statement → List Statement
  | [] => []
  | s :: rest => s.placeless :: placelessList rest

def placelessBlocks : List Block → List Block
  | [] => []
  | b :: rest => b.placeless :: placelessBlocks rest

def placelessBranches : List Branch → List Branch
  | [] => []
  | b :: rest => b.placeless :: placelessBranches rest

end

@[simp] theorem placelessList_eq (body : List Statement) :
    placelessList body = body.map Statement.placeless := by
  induction body with
  | nil => simp [placelessList]
  | cons s rest ih => simp [placelessList, ih]

@[simp] theorem placelessBlocks_eq (blocks : List Block) :
    placelessBlocks blocks = blocks.map Block.placeless := by
  induction blocks with
  | nil => simp [placelessBlocks]
  | cons b rest ih => simp [placelessBlocks, ih]

@[simp] theorem placelessBranches_eq (branches : List Branch) :
    placelessBranches branches = branches.map Branch.placeless := by
  induction branches with
  | nil => simp [placelessBranches]
  | cons b rest ih => simp [placelessBranches, ih]

theorem Command.placeless_mk (extent : Extent) (head : List Token) (block : Option Block)
    (innerBlocks : List Block) (modifier : Option Modifier) :
    (Command.mk extent head block innerBlocks modifier).placeless =
      ⟨.nowhere, head.map Token.placeless, block.map Block.placeless,
        innerBlocks.map Block.placeless, modifier.map Modifier.placeless⟩ := by
  cases block <;> simp [Command.placeless]

theorem Statement.eq_command_of_placeless {s : Statement} {c : Command}
    (h : s.placeless = (Statement.command c).placeless) :
    ∃ c', s = .command c' ∧ c'.placeless = c.placeless := by
  cases s with
  | command c' =>
    simp only [Statement.placeless] at h
    exact ⟨c', rfl, Statement.command.inj h⟩
  | conditional c' =>
    simp only [Statement.placeless] at h
    exact absurd h Statement.noConfusion
  | compound c' =>
    simp only [Statement.placeless] at h
    exact absurd h Statement.noConfusion

theorem Command.block_placeless (c : Command) : c.placeless.block = c.block.map Block.placeless := by
  obtain ⟨extent, head, block, innerBlocks, modifier⟩ := c
  rw [Command.placeless_mk]

theorem Block.placeless_mk (kind : BlockKind) (opener : Token) (closer : Option Token)
    (params : List Text) (body : List Statement) :
    (Block.mk kind opener closer params body).placeless =
      ⟨kind, opener.placeless, closer.map Token.placeless, params, body.map Statement.placeless⟩ := by
  simp [Block.placeless]

theorem Block.closer_placeless (b : Block) : b.placeless.closer = b.closer.map Token.placeless := by
  obtain ⟨kind, opener, closer, params, body⟩ := b
  rw [Block.placeless_mk]

theorem Block.params_placeless (b : Block) : b.placeless.params = b.params := by
  obtain ⟨kind, opener, closer, params, body⟩ := b
  rw [Block.placeless_mk]

theorem Block.body_placeless (b : Block) : b.placeless.body = b.body.map Statement.placeless := by
  obtain ⟨kind, opener, closer, params, body⟩ := b
  rw [Block.placeless_mk]

theorem Conditional.placeless_mk (extent : Extent) (word : ConditionalWord) (subject : List Token)
    (branches : List Branch) (opener : Token) (closer : Option Token) :
    (Conditional.mk extent word subject branches opener closer).placeless =
      ⟨.nowhere, word, subject.map Token.placeless, branches.map Branch.placeless, opener.placeless,
        closer.map Token.placeless⟩ := by
  simp [Conditional.placeless]

theorem Branch.placeless_mk (word : BranchWord) (condition : List Token) (body : List Statement)
    (start : Nat) :
    (Branch.mk word condition body start).placeless =
      ⟨word, condition.map Token.placeless, body.map Statement.placeless, 0⟩ := by
  simp [Branch.placeless]

theorem Compound.placeless_mk (extent : Extent) (head : List Token) (body : List Statement)
    (opener : Token) (closer : Option Token) :
    (Compound.mk extent head body opener closer).placeless =
      ⟨.nowhere, head.map Token.placeless, body.map Statement.placeless, opener.placeless,
        closer.map Token.placeless⟩ := by
  simp [Compound.placeless]

/-! ### Cursors -/

/-- Tokens spelled alike stand before two cursors, before the second one `n` tokens further right. -/
structure Cursor.Alike (n : Nat) (c c' : Cursor) : Prop where
  index : c'.index = c.index + n
  rest : c'.rest.map Token.placeless = c.rest.map Token.placeless

namespace Cursor.Alike

variable {n : Nat} {c c' : Cursor} (h : c.Alike n c')

include h

theorem advance (k : Nat) : (c.advance k).Alike n (c'.advance k) where
  index := by rw [index_advance, index_advance, h.index, Nat.add_right_comm]
  rest := by rw [rest_advance, rest_advance, List.map_drop, List.map_drop, h.rest]

theorem next : c.next.Alike n c'.next := h.advance 1

theorem skipSeparators : c.skipSeparators.Alike n c'.skipSeparators := by
  have hlength : ∀ c : Cursor, (c.rest.takeWhile Token.isSeparator).length =
      ((c.rest.map Token.placeless).takeWhile Token.isSeparator).length := by
    intro c
    rw [List.takeWhile_map, List.length_map]
    congr 2
    funext t
    exact (Token.isSeparator_eq_of_placeless (keepsSpelling_placeless t)).symm
  unfold Cursor.skipSeparators
  rw [hlength c', h.rest, ← hlength c]
  exact h.advance _

theorem line (stopAtDo : Bool) :
    (c'.line stopAtDo).1.map Token.placeless = (c.line stopAtDo).1.map Token.placeless ∧
      (c.line stopAtDo).2.Alike n (c'.line stopAtDo).2 := by
  have hrun := fun c : Cursor => lineRun_map keepsSpelling_placeless stopAtDo none 0 c.rest
  obtain ⟨htaken, hcount⟩ := Prod.mk.inj ((hrun c').symm.trans ((congrArg _ h.rest).trans (hrun c)))
  refine ⟨htaken, ?_⟩
  unfold Cursor.line
  dsimp only
  rw [hcount]
  exact h.advance _

theorem params : c'.params.1 = c.params.1 ∧ c.params.2.Alike n c'.params.2 := by
  have hrest := h.rest
  unfold Cursor.params
  cases hc : c.rest with
  | nil =>
    rw [hc, List.map_nil, List.map_eq_nil_iff] at hrest
    rw [hrest]
    exact ⟨rfl, h⟩
  | cons t rest =>
    rw [hc, List.map_cons, List.map_eq_cons_iff] at hrest
    obtain ⟨t', rest', hc', ht, hrest⟩ := hrest
    have hinner : ∀ rest : List Token, (rest.takeWhile fun t => !t.isPunct ["|"]).map Token.placeless =
        (rest.map Token.placeless).takeWhile fun t => !t.isPunct ["|"] := by
      intro rest
      rw [List.takeWhile_map]
      congr 2
      funext t
      exact congrArg _ (Token.isPunct_eq_of_placeless (keepsSpelling_placeless t) _).symm
    have hvalues : ∀ run : List Token, run.filterMap (·.valueOf? .ident) =
        (run.map Token.placeless).filterMap (·.valueOf? .ident) := by
      intro run
      rw [List.filterMap_map]
      congr 1
      funext t
      exact (t.valueOf?_placeless .ident).symm
    have htake := (hinner rest').trans ((congrArg _ hrest).trans (hinner rest).symm)
    rw [hc']
    simp only [Token.isPunct_eq_of_placeless ht]
    split
    · exact ⟨rfl, h.next⟩
    · split
      · refine ⟨by rw [hvalues, htake, ← hvalues], ?_⟩
        have hlength := congrArg List.length htake
        rw [List.length_map, List.length_map] at hlength
        rw [hlength]
        exact h.advance _
      · exact ⟨rfl, h⟩

theorem branchHead (branchWord : BranchWord) :
    (Cookbook.branchHead branchWord c').1.map Token.placeless =
        (Cookbook.branchHead branchWord c).1.map Token.placeless ∧
      (Cookbook.branchHead branchWord c).2.Alike n (Cookbook.branchHead branchWord c').2 := by
  unfold Cookbook.branchHead
  split
  · exact ⟨rfl, h⟩
  · exact h.line false

theorem head? : c'.rest.head?.map Token.placeless = c.rest.head?.map Token.placeless := by
  rw [← List.head?_map, h.rest, List.head?_map]

end Cursor.Alike

/-! ### Drafts -/

namespace CommandDraft

def placeless (d : CommandDraft) : CommandDraft :=
  ⟨d.head.map Token.placeless, d.openers.map Token.placeless, d.block.map Block.placeless,
    d.innerBlocks.map Block.placeless, d.modifier.map Modifier.placeless⟩

section Erased

variable (d : CommandDraft)

theorem push_placeless (t : Token) : d.placeless.push t.placeless = (d.push t).placeless := by
  simp only [push, placeless, Token.isOpener_eq_of_placeless (keepsSpelling_placeless t),
    Token.isCloser_eq_of_placeless (keepsSpelling_placeless t)]
  congr 1
  split
  · rfl
  · split
    · exact List.map_tail.symm
    · rfl

theorem addBlock_placeless (b : Block) :
    d.placeless.addBlock b.placeless = (d.addBlock b).placeless := by
  simp only [addBlock, placeless, List.isEmpty_map, Option.isNone_map]
  split <;> rfl

theorem addModifier_placeless (t : Token) (condition : List Token) :
    d.placeless.addModifier t.placeless (condition.map Token.placeless) =
      (d.addModifier t condition).placeless := by
  simp only [addModifier, placeless, modifierWord,
    Token.isKeyword_eq_of_placeless (keepsSpelling_placeless t)]
  rfl

theorem build_placeless (first : Token) (start : Nat) :
    (d.build first start).placeless =
      ⟨.nowhere, d.placeless.head.reverse, d.placeless.block, d.placeless.innerBlocks.reverse,
        d.placeless.modifier⟩ := by
  simp only [build, Command.placeless_mk, placeless, List.map_reverse]

end Erased

section Alike

variable {d d' : CommandDraft} (h : d'.placeless = d.placeless)

include h

theorem openers_eq_nil_of_placeless (hopen : d.openers = []) : d'.openers = [] := by
  have hopeners : d'.openers.map Token.placeless = d.openers.map Token.placeless :=
    congrArg CommandDraft.openers h
  rw [hopen, List.map_nil] at hopeners
  exact List.map_eq_nil_iff.1 hopeners

/-- Drafts and tokens that are spelled alike ask for the same step. -/
theorem step_of_placeless {tokens tokens' : List Token}
    (ht : tokens'.map Token.placeless = tokens.map Token.placeless) :
    (d'.step tokens').map Token.placeless = (d.step tokens).map Token.placeless := by
  have herased : ∀ (d : CommandDraft) (tokens : List Token),
      d.placeless.step (tokens.map Token.placeless) = (d.step tokens).map Token.placeless :=
    fun d tokens => step_map keepsSpelling_placeless rfl rfl tokens
  rw [← herased, h, ht, herased]

theorem push_of_placeless {t t' : Token} (ht : t'.placeless = t.placeless) :
    (d'.push t').placeless = (d.push t).placeless := by
  rw [← push_placeless, h, ht, push_placeless]

theorem addBlock_of_placeless {b b' : Block} (hb : b'.placeless = b.placeless) :
    (d'.addBlock b').placeless = (d.addBlock b).placeless := by
  rw [← addBlock_placeless, h, hb, addBlock_placeless]

theorem addModifier_of_placeless {t t' : Token} (ht : t'.placeless = t.placeless)
    {condition condition' : List Token}
    (hc : condition'.map Token.placeless = condition.map Token.placeless) :
    (d'.addModifier t' condition').placeless = (d.addModifier t condition).placeless := by
  rw [← addModifier_placeless, h, ht, hc, addModifier_placeless]

theorem build_of_placeless (first first' : Token) (start start' : Nat) :
    (d'.build first' start').placeless = (d.build first start).placeless := by
  rw [build_placeless, h, build_placeless]

theorem addRun_of_placeless {n index index' : Nat} {c c' : Cursor} (hc : c.Alike n c')
    (hindex : index' = index + n) :
    (d'.addRun c' index').placeless = (d.addRun c index).placeless := by
  have hkept : ∀ tokens : List Token, (tokens.filter (!·.isNewline)).map Token.placeless =
      (tokens.map Token.placeless).filter (!·.isNewline) := by
    intro tokens
    rw [List.filter_map]
    congr 2
    funext t
    exact congrArg _ t.isNewline_placeless.symm
  have hcount : index' - c'.index = index - c.index := by
    rw [hindex, hc.index, Nat.add_sub_add_right]
  have hhead : d'.head.map Token.placeless = d.head.map Token.placeless :=
    congrArg CommandDraft.head h
  have hrun : (d'.addRun c' index').head.map Token.placeless =
      (d.addRun c index).head.map Token.placeless := by
    simp only [addRun, List.map_append, List.map_reverse, hkept, List.map_take, hc.rest, hcount, hhead]
  unfold placeless at h ⊢
  injection h with _ hopeners hblock hinner hmodifier
  rw [hrun]
  exact CommandDraft.mk.injEq .. |>.mpr ⟨rfl, hopeners, hblock, hinner, hmodifier⟩

end Alike

end CommandDraft

/-! ### Results -/

/-- Nothing is wrong with the second result either; its value is the same up to places, which `f`
forgets, and it ends at the same token. -/
structure Parsed.Alike {α β : Type} (n : Nat) (f : α → β) (p p' : Parsed α) : Prop where
  clean : p'.problems = []
  value : f p'.value = f p.value
  cursor : p.cursor.Alike n p'.cursor

theorem Parsed.Alike.after {α β : Type} {n : Nat} {f : α → β} {p p' : Parsed α} (h : p.Alike n f p')
    (problems : List Problem) : (p.after problems).Alike n f (p'.after []) :=
  ⟨h.clean, h.value, h.cursor⟩

/-- The calls with a given fuel with which nothing is wrong give the same where tokens are spelled
alike. -/
structure Alike (src src' : TokenSource) (n fuel : Nat) : Prop where
  statements : ∀ stop c c', (∀ t : Token, stop t.placeless = stop t) → c.Alike n c' →
    (parseStatements src fuel stop c).problems = [] →
    (parseStatements src fuel stop c).Alike n (List.map Statement.placeless)
      (parseStatements src' fuel stop c')
  statement : ∀ t t' c c', t'.placeless = t.placeless → c.Alike n c' →
    (parseStatement src fuel t c).problems = [] →
    (parseStatement src fuel t c).Alike n Statement.placeless (parseStatement src' fuel t' c')
  block : ∀ opener opener' kind c c', opener'.placeless = opener.placeless → c.Alike n c' →
    (parseBlock src fuel opener kind c).problems = [] →
    (parseBlock src fuel opener kind c).Alike n Block.placeless
      (parseBlock src' fuel opener' kind c')
  branches : ∀ word c c', c.Alike n c' → (parseBranches src fuel word c).problems = [] →
    (parseBranches src fuel word c).Alike n
      (Prod.map (List.map Branch.placeless) (Option.map Token.placeless))
      (parseBranches src' fuel word c')
  conditional : ∀ opener opener' c c', opener'.placeless = opener.placeless → c.Alike n c' →
    (parseConditional src fuel opener c).problems = [] →
    (parseConditional src fuel opener c).Alike n Conditional.placeless
      (parseConditional src' fuel opener' c')
  compound : ∀ opener opener' c c', opener'.placeless = opener.placeless → c.Alike n c' →
    (parseCompound src fuel opener c).problems = [] →
    (parseCompound src fuel opener c).Alike n Compound.placeless
      (parseCompound src' fuel opener' c')
  command : ∀ first first' start start' d d' c c', d'.placeless = d.placeless → c.Alike n c' →
    (parseCommand src fuel first start d c).problems = [] →
    (parseCommand src fuel first start d c).Alike n Command.placeless
      (parseCommand src' fuel first' start' d' c')

namespace CommandDraft

/-- A command that ends with nothing open ends the same wherever it stands. -/
theorem finish_alike (src src' : TokenSource) {d d' : CommandDraft} (h : d'.placeless = d.placeless)
    (first first' : Token) (start start' : Nat) {n : Nat} {c c' : Cursor} (hc : c.Alike n c')
    (hclean : (d.finish src first start c).problems = []) :
    (d.finish src first start c).Alike n Command.placeless (d'.finish src' first' start' c') := by
  have hopen := openers_of_clean hclean
  rw [finish_nil _ _ _ _ hopen, finish_nil _ _ _ _ (openers_eq_nil_of_placeless h hopen)]
  exact ⟨rfl, build_of_placeless h first first' start start', hc⟩

end CommandDraft

theorem BlockKind.closes_placeless (kind : BlockKind) (t : Token) :
    kind.closes t.placeless = kind.closes t := by
  cases kind <;> exact t.isOneOf_placeless _ _

/-- A body that is closed is closed by a token that is spelled alike. -/
theorem closeBody_alike (src src' : TokenSource) {isCloser : Token → Bool}
    (hcloser : ∀ t : Token, isCloser t.placeless = isCloser t) (opener opener' : Token)
    (fault fault' : Fault) {n : Nat} {p p' : Parsed (List Statement)}
    (hp : p.problems = [] → p.Alike n (List.map Statement.placeless) p')
    (h : (closeBody src isCloser opener fault p).problems = []) :
    let b := closeBody src isCloser opener fault p
    let b' := closeBody src' isCloser opener' fault' p'
    b'.problems = [] ∧ b'.body.map Statement.placeless = b.body.map Statement.placeless ∧
      b'.closer.map Token.placeless = b.closer.map Token.placeless ∧ b.cursor.Alike n b'.cursor := by
  obtain ⟨t, hhead, hcloses, he⟩ := closer_of_closeBody h
  rw [he] at h ⊢
  obtain ⟨hclean, hvalue, hcursor⟩ := hp h
  have hhead' := hcursor.head?
  rw [hhead, Option.map_some, Option.map_eq_some_iff] at hhead'
  obtain ⟨t', hhead', ht⟩ := hhead'
  have hcloses' : isCloser t' = true := by rw [← hcloser, ht, hcloser, hcloses]
  have he' : closeBody src' isCloser opener' fault' p' =
      ⟨p'.value, some t', p'.cursor.next, p'.problems⟩ := by
    unfold closeBody
    simp [hhead', Option.filter, hcloses']
  rw [he']
  exact ⟨hclean, hvalue, congrArg some ht, hcursor.next⟩

namespace Alike

variable {src src' : TokenSource} {n fuel : Nat}

theorem zero (src src' : TokenSource) (n : Nat) : Alike src src' n 0 where
  statements stop c c' _ hc _ := by
    rw [parseStatements, parseStatements]
    exact ⟨rfl, rfl, hc⟩
  statement t t' c c' _ hc _ := by
    rw [parseStatement, parseStatement]
    exact ⟨rfl, by simp only [Statement.placeless, Command.placeless_mk], hc.next⟩
  block opener opener' kind c c' ht hc _ := by
    rw [parseBlock, parseBlock]
    exact ⟨rfl, by simp only [Block.placeless_mk, ht], hc.next⟩
  branches word c c' hc _ := by
    rw [parseBranches, parseBranches]
    exact ⟨rfl, rfl, hc⟩
  conditional opener opener' c c' ht hc _ := by
    have hword : conditionalWord opener' = conditionalWord opener := by
      rw [← conditionalWord_map keepsSpelling_placeless, ht,
        conditionalWord_map keepsSpelling_placeless]
    rw [parseConditional, parseConditional]
    exact ⟨rfl, by simp only [Conditional.placeless_mk, ht, hword], hc.next⟩
  compound opener opener' c c' ht hc _ := by
    rw [parseCompound, parseCompound]
    exact ⟨rfl, by simp only [Compound.placeless_mk, ht], hc.next⟩
  command first first' start start' d d' c c' hd hc h := by
    rw [parseCommand] at h ⊢
    rw [parseCommand]
    exact CommandDraft.finish_alike src src' hd first first' start start' hc h

section Succ

variable (ih : Alike src src' n fuel)

include ih

theorem statements_succ (stop : Token → Bool) (c c' : Cursor)
    (hstop : ∀ t : Token, stop t.placeless = stop t) (hc : c.Alike n c')
    (h : (parseStatements src (fuel + 1) stop c).problems = []) :
    (parseStatements src (fuel + 1) stop c).Alike n (List.map Statement.placeless)
      (parseStatements src' (fuel + 1) stop c') := by
  have hs := hc.skipSeparators
  have hsteps : (listStep stop c'.skipSeparators.rest).map Token.placeless =
      (listStep stop c.skipSeparators.rest).map Token.placeless := by
    rw [← listStep_map keepsSpelling_placeless hstop, hs.rest,
      listStep_map keepsSpelling_placeless hstop]
  have hkind := ListStep.matches_of_map hsteps
  rw [parseStatements_succ] at h ⊢
  rw [parseStatements_succ]
  cases hstep : listStep stop c.skipSeparators.rest with
  | done =>
    rw [hstep] at hkind
    rw [hkind]
    exact ⟨rfl, rfl, hs⟩
  | stray t =>
    rw [hstep] at h
    exact absurd h (by simp)
  | pass =>
    rw [hstep] at h hkind
    rw [hkind]
    exact ih.statements stop _ _ hstop hs.next h
  | statement t =>
    rw [hstep] at h hkind
    obtain ⟨t', hstep', ht⟩ := hkind
    obtain ⟨hprob₁, hprob₂⟩ := List.append_eq_nil_iff.1 h
    obtain ⟨hclean₁, hvalue₁, hcursor₁⟩ := ih.statement t t' _ _ ht hs hprob₁
    obtain ⟨hclean₂, hvalue₂, hcursor₂⟩ := ih.statements stop _ _ hstop hcursor₁ hprob₂
    rw [hstep']
    exact ⟨List.append_eq_nil_iff.2 ⟨hclean₁, hclean₂⟩, congrArg₂ List.cons hvalue₁ hvalue₂, hcursor₂⟩

theorem statement_succ (t t' : Token) (c c' : Cursor) (ht : t'.placeless = t.placeless)
    (hc : c.Alike n c') (h : (parseStatement src (fuel + 1) t c).problems = []) :
    (parseStatement src (fuel + 1) t c).Alike n Statement.placeless
      (parseStatement src' (fuel + 1) t' c') := by
  rw [parseStatement_succ] at h ⊢
  rw [parseStatement_succ]
  simp only [Token.isKeyword_eq_of_placeless ht]
  split
  · rename_i hword
    rw [if_pos hword] at h
    obtain ⟨hclean, hvalue, hcursor⟩ := ih.conditional t t' c c' ht hc h
    exact ⟨hclean, by simp only [Parsed.map, Statement.placeless, hvalue], hcursor⟩
  · rename_i hword
    rw [if_neg hword] at h
    split
    · rename_i hword'
      rw [if_pos hword'] at h
      obtain ⟨hclean, hvalue, hcursor⟩ := ih.compound t t' c c' ht hc h
      exact ⟨hclean, by simp only [Parsed.map, Statement.placeless, hvalue], hcursor⟩
    · rename_i hword'
      rw [if_neg hword'] at h
      obtain ⟨hclean, hvalue, hcursor⟩ := ih.command t t' c.index c'.index _ _ c c' rfl hc h
      exact ⟨hclean, by simp only [Parsed.map, Statement.placeless, hvalue], hcursor⟩

theorem block_succ (opener opener' : Token) (kind : BlockKind) (c c' : Cursor)
    (ht : opener'.placeless = opener.placeless) (hc : c.Alike n c')
    (h : (parseBlock src (fuel + 1) opener kind c).problems = []) :
    (parseBlock src (fuel + 1) opener kind c).Alike n Block.placeless
      (parseBlock src' (fuel + 1) opener' kind c') := by
  have hcloses := kind.closes_placeless
  obtain ⟨hparams, hbody⟩ := hc.next.params
  rw [parseBlock_succ] at h ⊢
  rw [parseBlock_succ]
  obtain ⟨hclean, hvalue, hcloser, hcursor⟩ := closeBody_alike src src' hcloses opener opener'
    kind.fault kind.fault (ih.statements _ _ _ hcloses hbody) h
  exact ⟨hclean, by simp only [Block.placeless_mk, ht, hparams, hvalue, hcloser], hcursor⟩

theorem branch_succ (word : ConditionalWord) (branchWord : BranchWord) (t t' : Token) (c c' : Cursor)
    (hc : c.Alike n c') (h : (parseBranch src fuel word branchWord t c).problems = []) :
    (parseBranch src fuel word branchWord t c).Alike n
      (Prod.map (List.map Branch.placeless) (Option.map Token.placeless))
      (parseBranch src' fuel word branchWord t' c') := by
  have hstop : ∀ t : Token, branchStop word branchWord t.placeless = branchStop word branchWord t := by
    intro t
    cases word <;> simp [branchStop, endsBranch, Token.isKeyword]
  obtain ⟨hline, hhead⟩ := hc.branchHead branchWord
  obtain ⟨hprob₁, hprob₂⟩ := List.append_eq_nil_iff.1 h
  obtain ⟨hclean₁, hvalue₁, hcursor₁⟩ := ih.statements _ _ _ hstop hhead hprob₁
  obtain ⟨hclean₂, hvalue₂, hcursor₂⟩ := ih.branches word _ _ hcursor₁ hprob₂
  obtain ⟨hbranches, hcloser⟩ := Prod.mk.inj hvalue₂
  unfold parseBranch
  refine ⟨List.append_eq_nil_iff.2 ⟨hclean₁, hclean₂⟩, ?_, hcursor₂⟩
  simp only [Prod.map, List.map_cons, Branch.placeless_mk, hline, hvalue₁, hbranches, hcloser]

theorem branches_succ (word : ConditionalWord) (c c' : Cursor) (hc : c.Alike n c')
    (h : (parseBranches src (fuel + 1) word c).problems = []) :
    (parseBranches src (fuel + 1) word c).Alike n
      (Prod.map (List.map Branch.placeless) (Option.map Token.placeless))
      (parseBranches src' (fuel + 1) word c') := by
  have hs := hc.skipSeparators
  have hsteps : (branchStep word c'.skipSeparators.rest).map Token.placeless =
      (branchStep word c.skipSeparators.rest).map Token.placeless := by
    rw [← branchStep_map keepsSpelling_placeless, hs.rest, branchStep_map keepsSpelling_placeless]
  have hkind := BranchStep.matches_of_map hsteps
  rw [parseBranches_succ] at h ⊢
  rw [parseBranches_succ]
  cases hstep : branchStep word c.skipSeparators.rest with
  | done =>
    rw [hstep] at hkind
    rw [hkind]
    exact ⟨rfl, rfl, hs⟩
  | close t =>
    rw [hstep] at hkind
    obtain ⟨t', hstep', ht⟩ := hkind
    rw [hstep']
    exact ⟨rfl, Prod.ext rfl (congrArg some ht), hs.next⟩
  | branch branchWord t =>
    rw [hstep] at h hkind
    obtain ⟨t', hstep', -⟩ := hkind
    rw [hstep']
    exact ih.branch_succ word branchWord t t' _ _ hs.next h

theorem allBranches_succ (opener opener' : Token) (c c' : Cursor)
    (ht : opener'.placeless = opener.placeless) (hc : c.Alike n c')
    (h : (parseAllBranches src fuel opener c).problems = []) :
    (parseAllBranches src fuel opener c).Alike n
      (Prod.map (List.map Branch.placeless) (Option.map Token.placeless))
      (parseAllBranches src' fuel opener' c') := by
  have hword : conditionalWord opener' = conditionalWord opener := by
    rw [← conditionalWord_map keepsSpelling_placeless, ht,
      conditionalWord_map keepsSpelling_placeless]
  unfold parseAllBranches at h ⊢
  rw [hword]
  split
  · rename_i hcase
    rw [if_pos hcase] at h
    exact ih.branches _ _ _ (hc.line false).2.skipSeparators h
  · rename_i hcase
    rw [if_neg hcase] at h
    exact ih.branch_succ _ _ opener opener' c c' hc h

theorem conditional_succ (opener opener' : Token) (c c' : Cursor)
    (ht : opener'.placeless = opener.placeless) (hc : c.Alike n c')
    (h : (parseConditional src (fuel + 1) opener c).problems = []) :
    (parseConditional src (fuel + 1) opener c).Alike n Conditional.placeless
      (parseConditional src' (fuel + 1) opener' c') := by
  have hword : conditionalWord opener' = conditionalWord opener := by
    rw [← conditionalWord_map keepsSpelling_placeless, ht,
      conditionalWord_map keepsSpelling_placeless]
  obtain ⟨hline, -⟩ := hc.next.line false
  rw [parseConditional_succ] at h ⊢
  rw [parseConditional_succ]
  obtain ⟨hclosed, hprob, -⟩ := closeConditional_closed h
  obtain ⟨t, hcloser⟩ := Option.isSome_iff_exists.1 hclosed
  obtain ⟨hclean, hvalue, hcursor⟩ := ih.allBranches_succ opener opener' _ _ ht hc.next hprob
  obtain ⟨hbranches, hcloser'⟩ := Prod.mk.inj hvalue
  rw [hcloser, Option.map_some, Option.map_eq_some_iff] at hcloser'
  obtain ⟨t', hcloser', htt⟩ := hcloser'
  have hsubject : (if conditionalWord opener = .caseOf then (c'.next.line false).1 else []).map
        Token.placeless =
      (if conditionalWord opener = .caseOf then (c.next.line false).1 else []).map
        Token.placeless := by
    split
    · exact hline
    · rfl
  unfold closeConditional buildConditional
  rw [hcloser, hcloser']
  refine ⟨hclean, ?_, hcursor⟩
  simp only [Conditional.placeless_mk, hword, hsubject, hbranches, ht, Option.map_some, htt]

theorem compound_succ (opener opener' : Token) (c c' : Cursor)
    (ht : opener'.placeless = opener.placeless) (hc : c.Alike n c')
    (h : (parseCompound src (fuel + 1) opener c).problems = []) :
    (parseCompound src (fuel + 1) opener c).Alike n Compound.placeless
      (parseCompound src' (fuel + 1) opener' c') := by
  have hend : ∀ t : Token, t.placeless.isKeyword ["end"] = t.isKeyword ["end"] :=
    fun t => t.isOneOf_placeless _ _
  rw [parseCompound_succ] at h ⊢
  rw [parseCompound_succ, Token.text_eq_of_placeless ht]
  obtain ⟨hline, hbody⟩ := hc.next.line (isLoopWord opener.text)
  obtain ⟨hclean, hvalue, hcloser, hcursor⟩ := closeBody_alike src src' hend opener opener'
    (.openKeyword opener.text) (.openKeyword opener.text) (ih.statements _ _ _ hend hbody) h
  exact ⟨hclean, by simp only [Compound.placeless_mk, hline, hvalue, ht, hcloser], hcursor⟩

/-- A block that is closed is closed wherever it stands, and the command goes on after it. -/
theorem afterBlock_succ (first first' : Token) (start start' : Nat) (d d' : CommandDraft)
    (hd : d'.placeless = d.placeless) {block block' : Parsed Block}
    (hblock : block.problems = [] → block.Alike n Block.placeless block')
    (h : (parseAfterBlock src fuel first start d block).problems = []) :
    (parseAfterBlock src fuel first start d block).Alike n Command.placeless
      (parseAfterBlock src' fuel first' start' d' block') := by
  have hproblems : block.problems = [] := by
    unfold parseAfterBlock at h
    split at h <;> exact (List.append_eq_nil_iff.1 h).1
  obtain ⟨hclean, hvalue, hcursor⟩ := hblock hproblems
  have hdraft := CommandDraft.addBlock_of_placeless hd hvalue
  have hclosers := congrArg Block.closer hvalue
  rw [Block.closer_placeless, Block.closer_placeless] at hclosers
  unfold parseAfterBlock at h ⊢
  rw [hclean]
  cases hcloser : block.value.closer with
  | some u =>
    rw [hcloser] at h
    rw [hcloser, Option.map_some, Option.map_eq_some_iff] at hclosers
    obtain ⟨u', hcloser', -⟩ := hclosers
    rw [hcloser']
    exact (ih.command first first' start start' _ _ _ _ hdraft hcursor
      (List.append_eq_nil_iff.1 h).2).after _
  | none =>
    rw [hcloser] at h
    rw [hcloser, Option.map_none, Option.map_eq_none_iff] at hclosers
    rw [hclosers]
    exact (CommandDraft.finish_alike src src' hdraft first first' start start' hcursor
      (List.append_eq_nil_iff.1 h).2).after _

theorem command_succ (first first' : Token) (start start' : Nat) (d d' : CommandDraft) (c c' : Cursor)
    (hd : d'.placeless = d.placeless) (hc : c.Alike n c')
    (h : (parseCommand src (fuel + 1) first start d c).problems = []) :
    (parseCommand src (fuel + 1) first start d c).Alike n Command.placeless
      (parseCommand src' (fuel + 1) first' start' d' c') := by
  have hkind := CommandStep.matches_of_map (CommandDraft.step_of_placeless hd hc.rest)
  rw [parseCommand_succ] at h ⊢
  rw [parseCommand_succ]
  cases hstep : d.step c.rest with
  | done =>
    rw [hstep] at h hkind
    rw [hkind]
    exact CommandDraft.finish_alike src src' hd first first' start start' hc h
  | skip =>
    rw [hstep] at h hkind
    rw [hkind]
    exact ih.command first first' start start' d d' _ _ hd hc.next h
  -- from here on the other draft takes a token like the one taken
  | push t =>
    rw [hstep] at h hkind
    obtain ⟨t', hstep', ht⟩ := hkind
    rw [hstep']
    exact ih.command first first' start start' _ _ _ _ (CommandDraft.push_of_placeless hd ht) hc.next h
  | modifier t =>
    rw [hstep] at h hkind
    obtain ⟨t', hstep', ht⟩ := hkind
    obtain ⟨hline, hcursor⟩ := hc.next.line false
    rw [hstep']
    exact CommandDraft.finish_alike src src' (CommandDraft.addModifier_of_placeless hd ht hline)
      first first' start start' hcursor h
  | conditional t =>
    rw [hstep] at h hkind
    obtain ⟨t', hstep', ht⟩ := hkind
    obtain ⟨hprob₁, hprob₂⟩ := List.append_eq_nil_iff.1 h
    obtain ⟨hclean, -, hcursor⟩ := ih.conditional t t' c c' ht hc hprob₁
    have hmore := ih.command first first' start start' _ _ _ _
      (CommandDraft.addRun_of_placeless hd hc hcursor.index) hcursor hprob₂
    rw [hstep']
    dsimp only
    rw [hclean]
    exact hmore.after _
  | compound t =>
    rw [hstep] at h hkind
    obtain ⟨t', hstep', ht⟩ := hkind
    obtain ⟨hprob₁, hprob₂⟩ := List.append_eq_nil_iff.1 h
    obtain ⟨hclean, -, hcursor⟩ := ih.compound t t' c c' ht hc hprob₁
    have hmore := ih.command first first' start start' _ _ _ _
      (CommandDraft.addRun_of_placeless hd hc hcursor.index) hcursor hprob₂
    rw [hstep']
    dsimp only
    rw [hclean]
    exact hmore.after _
  | block t kind =>
    rw [hstep] at h hkind
    obtain ⟨t', hstep', ht⟩ := hkind
    rw [hstep']
    exact ih.afterBlock_succ first first' start start' d d' hd (ih.block t t' kind c c' ht hc) h

end Succ

end Alike

/-- Where tokens are spelled alike, every call with which nothing is wrong gives the same up to places,
whatever the files are. -/
theorem alike (src src' : TokenSource) (n fuel : Nat) : Alike src src' n fuel := by
  induction fuel with
  | zero => exact .zero src src' n
  | succ fuel ih =>
    exact ⟨ih.statements_succ, ih.statement_succ, ih.block_succ, ih.branches_succ,
      ih.conditional_succ, ih.compound_succ, ih.command_succ⟩

/-- What is read of a file does not depend on its layout as long as nothing is wrong. -/
theorem parsed_alike {src src' : TokenSource}
    (h : src'.tokens.map Token.placeless = src.tokens.map Token.placeless)
    (hclean : src.parsed.problems = []) :
    src'.parsed.problems = [] ∧
      src'.parsed.value.map Statement.placeless = src.parsed.value.map Statement.placeless := by
  have hfuel : src'.fuel = src.fuel := by
    have hlength := congrArg List.length h
    rw [List.length_map, List.length_map] at hlength
    unfold TokenSource.fuel TokenSource.size
    rw [hlength]
  have hstart : (src.cursor 0).Alike 0 (src'.cursor 0) := ⟨rfl, h⟩
  have hread := (alike src src' 0 src.fuel).statements (fun _ => false) _ _ (fun _ => rfl) hstart hclean
  unfold TokenSource.parsed
  rw [hfuel]
  exact ⟨hread.clean, hread.value⟩

end Cookbook
