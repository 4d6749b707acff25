import Cookbook.Proofs.Statement.Alike
import Cookbook.Proofs.Statement.Alone

/-!
# The two notations for a block

A block after a receiver is written between braces or between `do` and `end`. What stands in it is read
as it is by itself, up to where it stands, if it is a command that ends where its block is closed. The
condition of a modifier ends at the end of its line only, so between braces on one line it takes the
closing brace.

* `BlockForm` is a way to write a block, `IsReceiver text c` says that a block may follow a text;
* `BlockForm.holdsBlock` is a block whose body fits, `BlockForm.reports_text` one whose closer is taken;
* `blocksAgree_iff` says when braces and `do` give the same.
-/

namespace Cookbook

/-! ### Ways to write a block -/

/-- A way to write a block: the tokens around its parameters and its body, and the separators at the end
of the file. -/
structure BlockForm where
  kind : BlockKind
  opener : Token
  leftBar : Token
  params : List Token
  rightBar : Token
  before : List Token
  after : List Token
  closer : Token
  rest : List Token
  opens : kind.opens opener = true
  leftBar_isBar : leftBar.isPunct ["|"] = true
  params_noBar : ∀ t ∈ params, t.isPunct ["|"] = false
  rightBar_isBar : rightBar.isPunct ["|"] = true
  before_isSeparator : ∀ t ∈ before, t.isSeparator = true
  after_isSeparator : ∀ t ∈ after, t.isSeparator = true
  rest_isSeparator : ∀ t ∈ rest, t.isSeparator = true
  closes : kind.closes closer = true

namespace BlockForm

def tail (f : BlockForm) : List Token := f.after ++ f.closer :: f.rest

def tokens (f : BlockForm) (body : List Token) : List Token :=
  f.opener :: f.leftBar :: (f.params ++ f.rightBar :: (f.before ++ (body ++ f.tail)))

def names (f : BlockForm) : List Text := f.params.filterMap (·.valueOf? .ident)

/-- The command ends before the closer: it has no modifier, or a finished one with a separator after
it. -/
def Fits (f : BlockForm) (command : Command) : Prop :=
  ∀ m, command.modifier = some m → f.after ≠ [] ∧ m.isFinished = true

end BlockForm

/-! ### What ends a body -/

namespace BlockKind

variable {kind : BlockKind} {t : Token}

theorem content_of_closes (h : kind.closes t = true) :
    t.content = .name .keyword "end" ∨ t.content = .name .punct "\x7d" := by
  cases kind with
  | doEnd =>
    obtain ⟨v, hv, hcontent⟩ := Token.isOneOf_iff.1 h
    obtain rfl := List.mem_singleton.1 hv
    exact .inl hcontent
  | brace =>
    obtain ⟨v, hv, hcontent⟩ := Token.isOneOf_iff.1 h
    obtain rfl := List.mem_singleton.1 hv
    exact .inr hcontent

theorem not_isPassedOver_of_closes (h : kind.closes t = true) : t.isPassedOver = false := by
  rcases content_of_closes h with hcontent | hcontent <;>
    (simp only [Token.isPassedOver, Token.isSeparator, Token.isNewline, Token.isPunct,
      Token.isKeyword, Token.isOneOf, hcontent]
     decide)

theorem not_isSeparator_of_closes (h : kind.closes t = true) : t.isSeparator = false :=
  (Bool.or_eq_false_iff.1 (not_isPassedOver_of_closes h)).1

theorem not_isDot_of_closes (h : kind.closes t = true) : t.isPunct [".", "&."] = false := by
  rcases content_of_closes h with hcontent | hcontent <;>
    (simp only [Token.isPunct, Token.isOneOf, hcontent]
     decide)

theorem endsBefore_of_closes (h : kind.closes t = true) {d : CommandDraft} (hopen : d.openers = []) :
    d.endsBefore t = true := by
  rcases content_of_closes h with hcontent | hcontent <;>
    (simp only [CommandDraft.endsBefore, hopen, Token.isCloser, Token.isPunct, Token.isKeyword,
      Token.isOneOf, hcontent]
     decide)

theorem not_closes_of_startsCommand (h : t.startsCommand = true) : kind.closes t = false := by
  rw [Bool.eq_false_iff]
  intro hcloses
  simp only [Token.startsCommand, Bool.and_eq_true, Bool.not_eq_true'] at h
  have hstray := h.1.1.2
  rcases content_of_closes hcloses with hcontent | hcontent <;>
    (simp only [Token.isCloser, Token.isPunct, Token.isKeyword, Token.isOneOf, hcontent] at hstray
     exact absurd hstray (by decide))

end BlockKind

theorem Token.not_isDot_of_isSeparator {t : Token} (h : t.isSeparator = true) :
    t.isPunct [".", "&."] = false := by
  rcases Bool.or_eq_true_iff.1 h with h | h
  · exact Token.not_isPunct_of_isNewline h _
  · obtain ⟨v, hv, hcontent⟩ := Token.isOneOf_iff.1 h
    obtain rfl := List.mem_singleton.1 hv
    simp only [Token.isPunct, Token.isOneOf, hcontent]
    decide

/-- A command outside brackets ends before the closer of a block, or before a separator there. -/
theorem parseCommand_closer (src : TokenSource) {e : CommandDraft} (hopen : e.openers = [])
    {kind : BlockKind} {closer : Token} (hcloses : kind.closes closer = true) {seps : List Token}
    (hseps : ∀ sep ∈ seps, sep.isSeparator = true) (rest : List Token) (fuel : Nat) (first : Token)
    (start i : Nat) :
    ∃ passed left, seps = passed ++ left ∧
      parseCommand src fuel first start e ⟨i, seps ++ closer :: rest⟩ =
        ⟨e.build first start, ⟨i + passed.length, left ++ closer :: rest⟩, []⟩ := by
  induction seps generalizing fuel i with
  | nil =>
    refine ⟨[], [], rfl, ?_⟩
    cases fuel with
    | zero => rw [parseCommand, CommandDraft.finish_nil _ _ _ _ hopen]; rfl
    | succ fuel =>
      have hstep : e.step (closer :: rest) = .done := by
        simp [CommandDraft.step, BlockKind.not_isSeparator_of_closes hcloses,
          BlockKind.endsBefore_of_closes hcloses hopen]
      rw [parseCommand_succ, List.nil_append, hstep]
      dsimp only
      rw [CommandDraft.finish_nil _ _ _ _ hopen]
      rfl
  | cons sep seps ih =>
    cases fuel with
    | zero =>
      refine ⟨[], sep :: seps, rfl, ?_⟩
      rw [parseCommand, CommandDraft.finish_nil _ _ _ _ hopen]
      rfl
    | succ fuel =>
      have hstep := e.step_of_isSeparator (hseps sep List.mem_cons_self) (seps ++ closer :: rest)
      -- a separator is passed over only where the head is unfinished
      by_cases hpast : e.continuesPast sep (seps ++ closer :: rest) = true
      · obtain ⟨passed, left, rfl, hmore⟩ :=
          ih (fun u hu => hseps u (List.mem_cons_of_mem _ hu)) fuel (i + 1)
        refine ⟨sep :: passed, left, rfl, ?_⟩
        rw [if_pos hpast] at hstep
        rw [parseCommand_succ, List.cons_append, hstep]
        dsimp only
        rw [show (⟨i, sep :: (passed ++ left ++ closer :: rest)⟩ : Cursor).next =
          ⟨i + 1, passed ++ left ++ closer :: rest⟩ from rfl, hmore, List.length_cons,
          Nat.add_right_comm, Nat.add_assoc]
      · refine ⟨[], sep :: seps, rfl, ?_⟩
        rw [if_neg hpast] at hstep
        rw [parseCommand_succ, List.cons_append, hstep]
        dsimp only
        rw [CommandDraft.finish_nil _ _ _ _ hopen]
        rfl

theorem listStep_closer {kind : BlockKind} {t : Token} (h : kind.closes t = true) (rest : List Token) :
    listStep kind.closes (t :: rest) = .done := by
  simp [listStep, h]

section Body

variable {text : Text} {command : Command} (h : IsCommand text command) (f : BlockForm)
  {src : TokenSource} (hsrc : src.tokens = (lex text 0).tokens ++ f.tail) {fuel : Nat}
  (hfuel : 6 * (lex text 0).tokens.length + 10 ≤ fuel)

theorem BlockForm.noDot_tail : f.tail.head?.any (·.isPunct [".", "&."]) = false := by
  unfold BlockForm.tail
  cases hafter : f.after with
  | nil => exact BlockKind.not_isDot_of_closes f.closes
  | cons sep seps =>
    exact Token.not_isDot_of_isSeparator (f.after_isSeparator sep (hafter ▸ List.mem_cons_self))

include h hsrc hfuel

/-- Before the tail of a block the text is read as a command, and then what is left. -/
theorem IsCommand.parseStatements_tail :
    ∃ t fuel', fuel = fuel' + 2 ∧
      GoesOn (.ofText text) src f.tail t 0 fuel' ((TokenSource.ofText text).cursor 0) command
        (parseCommand src fuel' t 0 .empty (src.cursor 0)) ∧
      parseStatements src fuel f.kind.closes (src.cursor 0) =
        let first := parseCommand src fuel' t 0 .empty (src.cursor 0)
        let more := parseStatements src (fuel' + 1) f.kind.closes first.cursor
        ⟨.command first.value :: more.value, more.cursor, first.problems ++ more.problems⟩ := by
  have hcontinues : src.Continues (TokenSource.ofText text) f.tail := ⟨hsrc, f.noDot_tail⟩
  obtain ⟨t, rest, htokens, ht, hgo⟩ := h.goesOn hcontinues
  have hsize : (TokenSource.ofText text).size = (lex text 0).tokens.length := rfl
  obtain ⟨fuel', rfl⟩ : ∃ k, fuel = k + 2 := ⟨fuel - 2, by omega⟩
  have hrest : (src.cursor 0).rest = t :: (rest ++ f.tail) := by
    show src.tokens.drop 0 = _
    rw [List.drop_zero, hcontinues.tokens, htokens, List.cons_append]
  exact ⟨t, fuel', rfl, hgo fuel' (by omega),
    parseStatements_command hrest ht (BlockKind.not_closes_of_startsCommand ht)⟩

/-- A command that ends before the closer of a block is all of its body. -/
theorem IsCommand.reads_body (hfits : f.Fits command) :
    ∃ i, parseStatements src fuel f.kind.closes (src.cursor 0) =
      ⟨[.command command], ⟨i, f.closer :: f.rest⟩, []⟩ := by
  obtain ⟨t, fuel', hfuel', hgo, hlist⟩ := h.parseStatements_tail f hsrc hfuel
  have hcontinues : src.Continues (TokenSource.ofText text) f.tail := ⟨hsrc, f.noDot_tail⟩
  have hsize : (TokenSource.ofText text).size = (lex text 0).tokens.length := rfl
  obtain ⟨i, left, hleft, hq⟩ : ∃ i left, (∀ sep ∈ left, sep.isSeparator = true) ∧
      parseCommand src fuel' t 0 .empty (src.cursor 0) =
        ⟨command, ⟨i, left ++ f.closer :: f.rest⟩, []⟩ := by
    cases hm : command.modifier with
    | none =>
      obtain ⟨g, e, hopen, hbuild, -, hq⟩ := hgo.of_no_modifier hm
      obtain ⟨passed, left, hafter, hend⟩ := parseCommand_closer src hopen f.closes
        f.after_isSeparator f.rest g t 0 (TokenSource.ofText text).size
      refine ⟨_, left, fun sep hsep => ?_, by rw [hq, BlockForm.tail, hend, ← hbuild]⟩
      exact f.after_isSeparator sep (hafter ▸ List.mem_append_right passed hsep)
    | some m =>
      obtain ⟨hne, hfinished⟩ := hfits m hm
      obtain ⟨sep, seps, hafter⟩ := List.exists_cons_of_ne_nil hne
      have htail : f.tail = sep :: (seps ++ f.closer :: f.rest) := by
        rw [BlockForm.tail, hafter, List.cons_append]
      have hsep := f.after_isSeparator sep (hafter ▸ List.mem_cons_self)
      rw [htail] at hgo hcontinues
      refine ⟨(TokenSource.ofText text).size, f.after, f.after_isSeparator, ?_⟩
      rw [hafter]
      exact hgo.of_finished hcontinues hm hfinished h.ends hsep (by omega)
  have hcloser : (f.closer :: f.rest).head?.any Token.isSeparator = false :=
    BlockKind.not_isSeparator_of_closes f.closes
  rw [hlist, hq]
  dsimp only
  rw [parseStatements_done hleft hcloser (listStep_closer f.closes f.rest)]
  exact ⟨_, rfl⟩

/-- A command with a modifier takes a closer that stands right after it, and nothing closes the
block. -/
theorem IsCommand.reads_open_body (hm : command.modifier ≠ none) (hafter : f.after = []) :
    ∃ body i, parseStatements src fuel f.kind.closes (src.cursor 0) = ⟨body, ⟨i, []⟩, []⟩ := by
  obtain ⟨t, fuel', hfuel', hgo, hlist⟩ := h.parseStatements_tail f hsrc hfuel
  have htail : f.tail = f.closer :: f.rest := by rw [BlockForm.tail, hafter, List.nil_append]
  have hcontinues : src.Continues (TokenSource.ofText text) (f.closer :: f.rest) :=
    htail ▸ ⟨hsrc, f.noDot_tail⟩
  have hsize : (TokenSource.ofText text).size = (lex text 0).tokens.length := rfl
  rw [htail] at hgo
  obtain ⟨hclean, n, hrest⟩ := hgo.of_modifier hcontinues hm h.ends
    (BlockKind.not_isPassedOver_of_closes f.closes) (by omega)
  obtain ⟨i, hcursor⟩ : ∃ i, (parseCommand src fuel' t 0 .empty (src.cursor 0)).cursor =
      ⟨i, f.rest.drop n ++ []⟩ := ⟨_, by rw [List.append_nil, ← hrest]⟩
  have hseps : ∀ sep ∈ f.rest.drop n, sep.isSeparator = true :=
    fun sep hsep => f.rest_isSeparator sep (List.mem_of_mem_drop hsep)
  rw [hlist]
  dsimp only
  rw [hcursor, parseStatements_done hseps rfl rfl, hclean]
  exact ⟨_, _, rfl⟩

end Body

/-! ### What is read of a block -/

theorem Cursor.params_bars {c : Cursor} {bar bar' : Token} {params inner : List Token}
    (hc : c.rest = bar :: (params ++ bar' :: inner)) (hbar : bar.isPunct ["|"] = true)
    (hparams : ∀ t ∈ params, t.isPunct ["|"] = false) (hbar' : bar'.isPunct ["|"] = true) :
    ∃ i, c.params = (params.filterMap (·.valueOf? .ident), ⟨i, inner⟩) := by
  have hbars : bar.isPunct ["||"] = false := by
    obtain ⟨v, hv, hcontent⟩ := Token.isOneOf_iff.1 hbar
    obtain rfl := List.mem_singleton.1 hv
    simp only [Token.isPunct, Token.isOneOf, hcontent]
    decide
  have hinner : ((params ++ bar' :: inner).takeWhile fun t => !t.isPunct ["|"]) = params := by
    rw [List.takeWhile_append_of_pos (fun t ht => by simp [hparams t ht]),
      List.takeWhile_cons_of_neg (by simp [hbar']), List.append_nil]
  unfold Cursor.params
  rw [hc]
  simp only [hbars, hbar, hinner, if_true, Bool.false_eq_true, if_false]
  have hdrop : (bar :: (params ++ bar' :: inner)).drop (params.length + 2) = inner :=
    List.drop_length_add_append 1
  refine ⟨c.index + (params.length + 2), ?_⟩
  unfold Cursor.advance
  rw [hc, hdrop]

section Block

variable {text : Text} {command : Command} (h : IsCommand text command) (f : BlockForm)
  (src : TokenSource) {c : Cursor} (hc : c.rest = f.tokens (lex text 0).tokens) {fuel : Nat}
  (hfuel : 6 * (lex text 0).tokens.length + 10 ≤ fuel)

include h hc hfuel

/-- The body of a block starts where its text does; it is read as it is before the tail alone. -/
theorem BlockForm.parseBlock_eq :
    ∃ i, parseBlock src (fuel + 1) f.opener f.kind c =
      let b := closeBody src f.kind.closes f.opener f.kind.fault
        (parseStatements src fuel f.kind.closes ⟨i, (lex text 0).tokens ++ f.tail⟩)
      ⟨⟨f.kind, f.opener, b.closer, f.names, b.body⟩, b.cursor, b.problems⟩ := by
  have hnext : c.next.rest = f.leftBar :: (f.params ++
      f.rightBar :: (f.before ++ ((lex text 0).tokens ++ f.tail))) := by
    rw [Cursor.rest_next, hc]
    rfl
  obtain ⟨i, hparams⟩ := Cursor.params_bars hnext f.leftBar_isBar f.params_noBar f.rightBar_isBar
  obtain ⟨t, rest, htokens, ht, -⟩ := h.reads
  have hhead : ((lex text 0).tokens ++ f.tail).head?.any Token.isSeparator = false := by
    rw [show (lex text 0).tokens = t :: rest from htokens]
    exact Token.not_isSeparator_of_startsCommand ht
  obtain ⟨fuel, rfl⟩ : ∃ k, fuel = k + 1 := ⟨fuel - 1, by omega⟩
  have hskip := parseStatements_skipSeparators src fuel f.kind.closes
    ⟨i, f.before ++ ((lex text 0).tokens ++ f.tail)⟩
  rw [Cursor.skipSeparators_separators _ f.before_isSeparator hhead] at hskip
  refine ⟨i + f.before.length, ?_⟩
  rw [parseBlock_succ, hparams]
  dsimp only
  rw [← hskip]
  rfl

/-- The block of a command that ends before the closer is closed, and the command is its body. -/
theorem BlockForm.reads_block (hfits : f.Fits command) :
    let p := parseBlock src (fuel + 1) f.opener f.kind c
    p.problems = [] ∧ p.value.closer.isSome ∧ p.value.params = f.names ∧
      p.value.body.map Statement.placeless = [(Statement.command command).placeless] ∧
      ∀ t ∈ p.cursor.rest, t.isSeparator = true := by
  obtain ⟨i, hp⟩ := f.parseBlock_eq h src hc hfuel
  let ideal : TokenSource := ⟨(lex text 0).tokens ++ f.tail, src.lines⟩
  have hideal : ideal.tokens = (lex text 0).tokens ++ f.tail := rfl
  obtain ⟨j, hbody⟩ := h.reads_body f hideal hfuel hfits
  have hstart : (ideal.cursor 0).Alike i ⟨i, (lex text 0).tokens ++ f.tail⟩ :=
    ⟨(Nat.zero_add i).symm, rfl⟩
  have hclosed : closeBody ideal f.kind.closes f.opener f.kind.fault
      (parseStatements ideal fuel f.kind.closes (ideal.cursor 0)) =
        ⟨[.command command], some f.closer, ⟨j + 1, f.rest⟩, []⟩ := by
    rw [hbody]
    unfold closeBody
    simp only [List.head?_cons, Option.filter_some, f.closes, if_true]
    rfl
  obtain ⟨hclean, hvalue, hcloser, hcursor⟩ := closeBody_alike ideal src f.kind.closes_placeless
    f.opener f.opener f.kind.fault f.kind.fault
    ((alike ideal src i fuel).statements f.kind.closes _ _ f.kind.closes_placeless hstart)
    (by rw [hclosed])
  rw [hclosed] at hvalue hcloser hcursor
  rw [hp]
  refine ⟨hclean, ?_, rfl, hvalue, fun t ht => ?_⟩
  · rw [← Option.isSome_map, hcloser]
    rfl
  · have hmem : t.placeless ∈ f.rest.map Token.placeless := by
      rw [← hcursor.rest]
      exact List.mem_map_of_mem ht
    obtain ⟨u, hu, hut⟩ := List.mem_map.1 hmem
    rw [← Token.isSeparator_eq_of_placeless hut]
    exact f.rest_isSeparator u hu

/-- The block of a command with a modifier is not closed by a closer right after it. -/
theorem BlockForm.reads_open_block (hm : command.modifier ≠ none) (hafter : f.after = []) :
    (parseBlock src (fuel + 1) f.opener f.kind c).problems ≠ [] := by
  obtain ⟨i, hp⟩ := f.parseBlock_eq h src hc hfuel
  let ideal : TokenSource := ⟨(lex text 0).tokens ++ f.tail, src.lines⟩
  have hideal : ideal.tokens = (lex text 0).tokens ++ f.tail := rfl
  obtain ⟨body, j, hbody⟩ := h.reads_open_body f hideal hfuel hm hafter
  have hstart : (ideal.cursor 0).Alike i ⟨i, (lex text 0).tokens ++ f.tail⟩ :=
    ⟨(Nat.zero_add i).symm, rfl⟩
  have hread := (alike ideal src i fuel).statements f.kind.closes _ _ f.kind.closes_placeless hstart
    (by rw [hbody])
  have hrest := hread.cursor.rest
  rw [hbody, List.map_nil, List.map_eq_nil_iff] at hrest
  rw [hp]
  intro hclean
  obtain ⟨t, hhead, -⟩ := closer_of_closeBody hclean
  rw [hrest] at hhead
  exact absurd hhead (by simp)

end Block

/-! ### Blocks after a receiver -/

/-- The text is a command that a block may follow: it has neither a block nor a modifier, and its head
ends in a name. -/
structure IsReceiver (text : Text) (command : Command) : Prop extends IsCommand text command where
  noBlock : command.block = none
  noModifier : command.modifier = none
  endsInName : command.head.getLast?.any (·.isKind .ident) = true

theorem Token.content_of_isIdent {t : Token} (h : t.isKind .ident = true) :
    ∃ value, t.content = .name .ident value := by
  unfold Token.isKind Token.valueOf? at h
  split at h
  · rename_i kind value hcontent
    split at h
    · rename_i hkind
      exact ⟨value, hkind ▸ hcontent⟩
    · exact absurd h Bool.false_ne_true
  · exact absurd h Bool.false_ne_true

theorem BlockKind.content_of_opens {kind : BlockKind} {t : Token} (h : kind.opens t = true) :
    kind = .doEnd ∧ t.content = .name .keyword "do" ∨
      kind = .brace ∧ t.content = .name .punct "\x7b" := by
  cases kind with
  | doEnd =>
    obtain ⟨v, hv, hcontent⟩ := Token.isOneOf_iff.1 h
    obtain rfl := List.mem_singleton.1 hv
    exact .inl ⟨rfl, hcontent⟩
  | brace =>
    obtain ⟨v, hv, hcontent⟩ := Token.isOneOf_iff.1 h
    obtain rfl := List.mem_singleton.1 hv
    exact .inr ⟨rfl, hcontent⟩

theorem BlockKind.not_isSeparator_of_opens {kind : BlockKind} {t : Token} (h : kind.opens t = true) :
    t.isSeparator = false := by
  rcases content_of_opens h with ⟨-, hcontent⟩ | ⟨-, hcontent⟩ <;>
    (simp only [Token.isSeparator, Token.isNewline, Token.isPunct, Token.isOneOf, hcontent]
     decide)

theorem BlockKind.not_isDot_of_opens {kind : BlockKind} {t : Token} (h : kind.opens t = true) :
    t.isPunct [".", "&."] = false := by
  rcases content_of_opens h with ⟨-, hcontent⟩ | ⟨-, hcontent⟩ <;>
    (simp only [Token.isPunct, Token.isOneOf, hcontent]
     decide)

namespace CommandDraft

theorem head_addBlock (d : CommandDraft) (b : Block) : (d.addBlock b).head = d.head := by
  unfold addBlock
  split <;> rfl

/-- The first block outside brackets is the command's own. -/
theorem block_addBlock {d : CommandDraft} (hopen : d.openers = []) (hnone : d.block = none) (b : Block) :
    (d.addBlock b).block = some b := by
  simp [addBlock, hopen, hnone]

variable {d : CommandDraft} (hopen : d.openers = [])
  (hname : d.head.head?.any (·.isKind .ident) = true)

include hopen hname

/-- After a name outside brackets the opener of a block opens a block. -/
theorem step_opener {kind : BlockKind} {t : Token} (h : kind.opens t = true) (rest : List Token) :
    d.step (t :: rest) = .block t kind := by
  obtain ⟨u, hu, hident⟩ := (Option.any_eq_true _ _).1 hname
  obtain ⟨value, hvalue⟩ := Token.content_of_isIdent hident
  have hbrace : d.braceOpensBlock = true := by
    unfold braceOpensBlock
    rw [hu]
    dsimp only
    rw [hvalue]
  have hsep : t.isSeparator = false := BlockKind.not_isSeparator_of_opens h
  have hends : d.endsBefore t = false := by
    rcases BlockKind.content_of_opens h with ⟨-, hcontent⟩ | ⟨-, hcontent⟩ <;>
      (simp only [endsBefore, Token.isCloser, Token.isPunct, Token.isKeyword, Token.isOneOf, hcontent,
        hopen]
       decide)
  have hkind : d.blockKind? t = some kind := by
    rcases BlockKind.content_of_opens h with ⟨rfl, hcontent⟩ | ⟨rfl, hcontent⟩ <;>
      (simp only [blockKind?, Token.isPunct, Token.isKeyword, Token.isOneOf, hcontent, hopen, hbrace]
       decide)
  simp [step, hsep, hends, hkind]

/-- After a name outside brackets a command ends before the separators at the end of the file. -/
theorem parseCommand_separators (src : TokenSource) {c : Cursor}
    (hseps : ∀ t ∈ c.rest, t.isSeparator = true) (fuel : Nat) (first : Token) (start : Nat) :
    parseCommand src fuel first start d c = ⟨d.build first start, c, []⟩ := by
  rw [← finish_nil src first start c hopen]
  cases fuel with
  | zero => rw [parseCommand]
  | succ fuel =>
    have hstep : d.step c.rest = .done := by
      cases hrest : c.rest with
      | nil => rfl
      | cons sep rest =>
        rw [hrest] at hseps
        obtain ⟨u, hu, hident⟩ := (Option.any_eq_true _ _).1 hname
        obtain ⟨value, hvalue⟩ := Token.content_of_isIdent hident
        have hlast : d.head.head?.any Token.continuesLine = false := by
          rw [hu]
          simp [Token.continuesLine, Token.isPunct, Token.isKeyword, Token.isOneOf, hvalue]
        have hdot : rest.head?.any (·.isPunct [".", "&."]) = false := by
          cases rest with
          | nil => rfl
          | cons v rest => exact Token.not_isDot_of_isSeparator (hseps v (by simp))
        rw [d.step_of_isSeparator (hseps sep List.mem_cons_self), if_neg]
        simp [continuesPast, hopen, hlast, hdot]
    rw [parseCommand_succ, hstep]

end CommandDraft

section File

variable {recv body : Text} {r s : Command} (hr : IsReceiver recv r) (f : BlockForm)
  {src : TokenSource} (hsrc : src.tokens = (lex recv 0).tokens ++ f.tokens (lex body 0).tokens)
  (hs : IsCommand body s)

include hr hsrc

/-- A receiver and a block are read as one statement and what is left after it. -/
theorem BlockForm.parsed_eq :
    ∃ t d fuel fuel', d.openers = [] ∧ d.block = none ∧
      d.head.head?.any (·.isKind .ident) = true ∧ 6 * (lex body 0).tokens.length + 10 ≤ fuel ∧
      src.parsed =
        let block := parseBlock src (fuel + 1) f.opener f.kind
          ⟨(lex recv 0).tokens.length, f.tokens (lex body 0).tokens⟩
        let first := parseAfterBlock src (fuel + 1) t 0 d block
        let more := parseStatements src (fuel' + 1) (fun _ => false) first.cursor
        ⟨.command first.value :: more.value, more.cursor, first.problems ++ more.problems⟩ := by
  have hcontinues : src.Continues (TokenSource.ofText recv) (f.tokens (lex body 0).tokens) :=
    ⟨hsrc, BlockKind.not_isDot_of_opens f.opens⟩
  obtain ⟨t, rest, htokens, ht, hgo⟩ := hr.goesOn hcontinues
  have hsize : (lex recv 0).tokens.length + (lex body 0).tokens.length + 4 ≤ src.size := by
    unfold TokenSource.size BlockForm.tokens BlockForm.tail at *
    rw [hsrc]
    simp only [List.length_append, List.length_cons]
    omega
  have hrecv : (TokenSource.ofText recv).size = (lex recv 0).tokens.length := rfl
  -- reading goes on from the draft that the receiver alone ends with
  obtain ⟨g, d, hopen, hbuild, hg, hq⟩ :=
    (hgo (6 * src.size + 10) (by omega)).of_no_modifier hr.noModifier
  have hblock : d.block = none := by
    have hnone := hr.noBlock
    rw [hbuild] at hnone
    exact hnone
  have hname : d.head.head?.any (·.isKind .ident) = true := by
    have hends := hr.endsInName
    rw [hbuild] at hends
    rw [← List.getLast?_reverse]
    exact hends
  have hstart : 6 * src.size + 10 ≤ g + (lex recv 0).tokens.length := hg
  -- two units go for the step that opens the block and the block itself
  obtain ⟨fuel, rfl⟩ : ∃ k, g = k + 1 + 1 := ⟨g - 2, by omega⟩
  refine ⟨t, d, fuel, 6 * src.size + 10, hopen, hblock, hname, by omega, ?_⟩
  have hrest : (src.cursor 0).rest = t :: (rest ++ f.tokens (lex body 0).tokens) := by
    show src.tokens.drop 0 = _
    rw [List.drop_zero, hcontinues.tokens, htokens, List.cons_append]
  have hparsed : src.parsed =
      parseStatements src (6 * src.size + 10 + 2) (fun _ => false) (src.cursor 0) := rfl
  have hcommand : parseCommand src (6 * src.size + 10) t (src.cursor 0).index .empty (src.cursor 0) =
      parseAfterBlock src (fuel + 1) t 0 d (parseBlock src (fuel + 1) f.opener f.kind
        ⟨(lex recv 0).tokens.length, f.tokens (lex body 0).tokens⟩) := by
    have hstep := CommandDraft.step_opener hopen hname f.opens
      (f.leftBar :: (f.params ++ f.rightBar :: (f.before ++ ((lex body 0).tokens ++ f.tail))))
    refine hq.trans ?_
    rw [parseCommand_succ, BlockForm.tokens, hstep]
    rfl
  rw [hparsed, parseStatements_command hrest ht rfl, hcommand]

include hs

/-- A block around a command that ends before the closer: the receiver has it as its own, with the
command as its body, and nothing is wrong. -/
theorem BlockForm.reads (hfits : f.Fits s) :
    ∃ a b, src.parsed.problems = [] ∧ src.parsed.value = [.command a] ∧ a.block = some b ∧
      b.params = f.names ∧
      b.body.map Statement.placeless = [(Statement.command s).placeless] := by
  obtain ⟨t, d, fuel, fuel', hopen, hnone, hname, hfuel, hparsed⟩ := f.parsed_eq hr hsrc
  have hcursor : (⟨(lex recv 0).tokens.length, f.tokens (lex body 0).tokens⟩ : Cursor).rest =
    f.tokens (lex body 0).tokens := rfl
  obtain ⟨hclean, hclosed, hparams, hbody, hseps⟩ := f.reads_block hs src hcursor hfuel hfits
  dsimp only at hparsed
  generalize parseBlock src (fuel + 1) f.opener f.kind
    ⟨(lex recv 0).tokens.length, f.tokens (lex body 0).tokens⟩ = block at *
  obtain ⟨u, hcloser⟩ := Option.isSome_iff_exists.1 hclosed
  have hfirst : parseAfterBlock src (fuel + 1) t 0 d block =
      ⟨(d.addBlock block.value).build t 0, block.cursor, []⟩ := by
    have hopen' := (d.openers_addBlock block.value).trans hopen
    have hname' : (d.addBlock block.value).head.head?.any (·.isKind .ident) = true := by
      rw [d.head_addBlock]
      exact hname
    unfold parseAfterBlock
    rw [hcloser]
    dsimp only
    rw [CommandDraft.parseCommand_separators hopen' hname' src hseps, hclean]
    rfl
  have hmore : parseStatements src (fuel' + 1) (fun _ => false) block.cursor =
      ⟨[], ⟨block.cursor.index + block.cursor.rest.length, []⟩, []⟩ := by
    have hend : parseStatements src (fuel' + 1) (fun _ => false)
        ⟨block.cursor.index, block.cursor.rest ++ []⟩ =
          ⟨[], ⟨block.cursor.index + block.cursor.rest.length, []⟩, []⟩ :=
      parseStatements_done hseps rfl rfl
    rwa [List.append_nil] at hend
  rw [hparsed, hfirst]
  dsimp only
  rw [hmore]
  exact ⟨_, block.value, rfl, rfl, CommandDraft.block_addBlock hopen hnone block.value, hparams, hbody⟩

/-- A block in which a modifier stands right before the closer is left open. -/
theorem BlockForm.reports (hm : s.modifier ≠ none) (hafter : f.after = []) :
    src.parsed.problems ≠ [] := by
  obtain ⟨t, d, fuel, fuel', -, -, -, hfuel, hparsed⟩ := f.parsed_eq hr hsrc
  have hcursor : (⟨(lex recv 0).tokens.length, f.tokens (lex body 0).tokens⟩ : Cursor).rest =
    f.tokens (lex body 0).tokens := rfl
  have hopen := f.reads_open_block hs src hcursor hfuel hm hafter
  intro hclean
  rw [hparsed] at hclean
  have hfirst := (List.append_eq_nil_iff.1 hclean).1
  unfold parseAfterBlock at hfirst
  split at hfirst
  · exact hopen (List.append_eq_nil_iff.1 hfirst).1
  · exact hopen (List.append_eq_nil_iff.1 hfirst).1

end File

/-! ### Braces and `do` -/

/-- The text is spelled as the tokens say, however it is laid out. -/
structure SpelledAs (text : Text) (tokens : List Token) : Prop where
  clean : (lex text 0).problems = []
  tokens : (lex text 0).tokens.map Token.placeless = tokens.map Token.placeless

/-- Nothing is wrong with the file; it is one command with a block of its own, which has the given
parameters and, up to places, the given statement as its body. -/
def Program.HoldsBlock (x : Program) (names : List Text) (s : Statement) : Prop :=
  x.problems = [] ∧ ∃ a b, x.statements = [.command a] ∧ a.block = some b ∧ b.params = names ∧
    b.body.map Statement.placeless = [s.placeless]

/-- Nothing is wrong with either file; each is one command with a block of its own, and the blocks have
the same parameters and, up to places, the same body. -/
def Program.BlocksAgree (x y : Program) : Prop :=
  x.problems = [] ∧ y.problems = [] ∧
    ∃ a b p q, x.statements = [.command a] ∧ y.statements = [.command b] ∧ a.block = some p ∧
      b.block = some q ∧ p.params = q.params ∧
      p.body.map Statement.placeless = q.body.map Statement.placeless

theorem Program.HoldsBlock.agree {x y : Program} {names : List Text} {s : Statement}
    (hx : x.HoldsBlock names s) (hy : y.HoldsBlock names s) : x.BlocksAgree y := by
  obtain ⟨hclean, a, p, ha, hp, hpnames, hpbody⟩ := hx
  obtain ⟨hclean', b, q, hb, hq, hqnames, hqbody⟩ := hy
  exact ⟨hclean, hclean', a, b, p, q, ha, hb, hp, hq, hpnames.trans hqnames.symm,
    hpbody.trans hqbody.symm⟩

section Program

variable {recv body text : Text} {r s : Command} (hr : IsReceiver recv r) (hs : IsCommand body s)
  (f : BlockForm) (htext : SpelledAs text ((lex recv 0).tokens ++ f.tokens (lex body 0).tokens))

include hr hs htext

/-- A text that is a receiver with a block around a command that ends before the closer holds the
command. -/
theorem BlockForm.holdsBlock (hfits : f.Fits s) :
    (Program.ofText text).HoldsBlock f.names (.command s) := by
  let ideal : TokenSource := ⟨(lex recv 0).tokens ++ f.tokens (lex body 0).tokens, .ofText text⟩
  have hideal : ideal.tokens = (lex recv 0).tokens ++ f.tokens (lex body 0).tokens := rfl
  obtain ⟨a, b, hclean, hvalue, hblock, hparams, hbody⟩ := f.reads hr hideal hs hfits
  have hspelled : (TokenSource.ofText text).tokens.map Token.placeless =
    ideal.tokens.map Token.placeless := htext.tokens
  obtain ⟨hclean', hvalue'⟩ := parsed_alike hspelled hclean
  rw [hvalue, List.map_cons, List.map_nil, List.map_eq_singleton_iff] at hvalue'
  obtain ⟨x, hx, hplace⟩ := hvalue'
  obtain ⟨a', rfl, ha⟩ := Statement.eq_command_of_placeless hplace
  have hblock' := congrArg Command.block ha
  rw [Command.block_placeless, Command.block_placeless, hblock, Option.map_some,
    Option.map_eq_some_iff] at hblock'
  obtain ⟨b', hb, hbplace⟩ := hblock'
  refine ⟨List.append_eq_nil_iff.2 ⟨htext.clean, hclean'⟩, a', b', hx, hb, ?_, ?_⟩
  · rw [← b'.params_placeless, hbplace, b.params_placeless, hparams]
  · rw [← b'.body_placeless, hbplace, b.body_placeless, hbody]

/-- A text that is a receiver with a block in which a modifier stands right before the closer: the
modifier takes the closer, and the block is reported as left open. -/
theorem BlockForm.reports_text (hm : s.modifier ≠ none) (hafter : f.after = []) :
    (Program.ofText text).problems ≠ [] := by
  let ideal : TokenSource := ⟨(lex recv 0).tokens ++ f.tokens (lex body 0).tokens, .ofText text⟩
  have hideal : ideal.tokens = (lex recv 0).tokens ++ f.tokens (lex body 0).tokens := rfl
  have hspelled : ideal.tokens.map Token.placeless =
    (TokenSource.ofText text).tokens.map Token.placeless := htext.tokens.symm
  intro hclean
  exact f.reports hr hideal hs hm hafter
    (parsed_alike hspelled (List.append_eq_nil_iff.1 hclean).2).1

end Program

/-- A token of one value as it is spelled, wherever it stands. -/
def NameKind.spelled (kind : NameKind) (value : Text) : Token := ⟨.name kind value, 0, 0, value, false⟩

def lineEnd : Token := ⟨.newline, 0, 0, "\n", false⟩

section Forms

variable (params : List Token) (h : ∀ t ∈ params, t.isPunct ["|"] = false)

/-- A block between braces, all on one line. -/
def BlockForm.braces : BlockForm where
  kind := .brace
  opener := NameKind.punct.spelled "\x7b"
  leftBar := NameKind.punct.spelled "|"
  params := params
  rightBar := NameKind.punct.spelled "|"
  before := []
  after := []
  closer := NameKind.punct.spelled "\x7d"
  rest := []
  opens := rfl
  leftBar_isBar := rfl
  params_noBar := h
  rightBar_isBar := rfl
  before_isSeparator := by simp
  after_isSeparator := by simp
  rest_isSeparator := by simp
  closes := rfl

/-- A block between `do` and `end`, its body on a line of its own. -/
def BlockForm.doEnd : BlockForm where
  kind := .doEnd
  opener := NameKind.keyword.spelled "do"
  leftBar := NameKind.punct.spelled "|"
  params := params
  rightBar := NameKind.punct.spelled "|"
  before := [lineEnd]
  after := [lineEnd]
  closer := NameKind.keyword.spelled "end"
  rest := []
  opens := rfl
  leftBar_isBar := rfl
  params_noBar := h
  rightBar_isBar := rfl
  before_isSeparator := by simp [lineEnd, Token.isSeparator, Token.isNewline]
  after_isSeparator := by simp [lineEnd, Token.isSeparator, Token.isNewline]
  rest_isSeparator := by simp
  closes := rfl

end Forms

/-- A command without a modifier is read alike in both notations. One with a modifier is not: between
`do` and `end` it is read as it is by itself, if its condition is finished, and between braces its
condition takes the closing brace. -/
theorem blocksAgree_iff {recv body braced ended : Text} {r s : Command} {params : List Token}
    (hr : IsReceiver recv r) (hs : IsCommand body s)
    (hparams : ∀ t ∈ params, t.isPunct ["|"] = false)
    (hbraced : SpelledAs braced
      ((lex recv 0).tokens ++ (BlockForm.braces params hparams).tokens (lex body 0).tokens))
    (hended : SpelledAs ended
      ((lex recv 0).tokens ++ (BlockForm.doEnd params hparams).tokens (lex body 0).tokens)) :
    ((Program.ofText braced).BlocksAgree (Program.ofText ended) ↔ s.modifier = none) ∧
      ((∀ m, s.modifier = some m → m.isFinished = true) →
        (Program.ofText ended).HoldsBlock (params.filterMap (·.valueOf? .ident)) (.command s)) := by
  have hended' : (∀ m, s.modifier = some m → m.isFinished = true) →
      (Program.ofText ended).HoldsBlock (params.filterMap (·.valueOf? .ident)) (.command s) :=
    fun hfinished => (BlockForm.doEnd params hparams).holdsBlock hr hs hended
      fun m hm => ⟨List.cons_ne_nil _ _, hfinished m hm⟩
  refine ⟨⟨?_, fun hm => ?_⟩, hended'⟩
  · rintro ⟨hclean, -⟩
    by_contra hm
    exact (BlockForm.braces params hparams).reports_text hr hs hbraced hm rfl hclean
  · have hnone : ∀ m, s.modifier ≠ some m := fun m hsome =>
      Option.some_ne_none m (hsome.symm.trans hm)
    have hbraced' := (BlockForm.braces params hparams).holdsBlock hr hs hbraced
      fun m hsome => absurd hsome (hnone m)
    exact hbraced'.agree (hended' fun m hsome => absurd hsome (hnone m))

/-- The command that is all of the file, if it is one. -/
def Program.command? (x : Program) : Option Command :=
  match x.statements with
  | [.command c] => some c
  | _ => none

theorem Program.exists_command {x : Program} {p : Command → Bool} (h : x.command?.any p = true) :
    ∃ c, x.statements = [.command c] ∧ p c = true := by
  obtain ⟨c, hc, hp⟩ := (Option.any_eq_true _ _).1 h
  unfold Program.command? at hc
  split at hc
  · rename_i c' hstatements
    obtain rfl := Option.some.inj hc
    exact ⟨c', hstatements, hp⟩
  · exact absurd hc.symm (Option.some_ne_none c)

/-- A command with `if`: between `do` and `end` the block holds it, and the braces are read otherwise. -/
theorem modifier_takes_brace :
    let body : Text := "package x if y"
    let braced : Text := "xs.each { |x| package x if y }"
    let ended : Text := "xs.each do |x|\n  package x if y\nend"
    ¬ (Program.ofText braced).BlocksAgree (Program.ofText ended) ∧
      ∃ s, IsCommand body s ∧ s.modifier.isSome ∧
        (Program.ofText ended).HoldsBlock ["x"] (.command s) := by
  intro body braced ended
  let recv : Text := "xs.each"
  let params : List Token := [NameKind.ident.spelled "x"]
  have hparams : ∀ t ∈ params, t.isPunct ["|"] = false := by decide +kernel
  obtain ⟨r, hr, hrecv⟩ := Program.exists_command (x := Program.ofText recv)
    (p := fun c => c.block.isNone && c.modifier.isNone && c.head.getLast?.any (·.isKind .ident))
    (by decide +kernel)
  obtain ⟨s, hs, hbody⟩ := Program.exists_command (x := Program.ofText body)
    (p := fun c => c.modifier.any Modifier.isFinished) (by decide +kernel)
  simp only [Bool.and_eq_true, Option.isNone_iff_eq_none] at hrecv
  obtain ⟨m, hm, hfinished⟩ := (Option.any_eq_true _ _).1 hbody
  have hcommand : IsCommand body s := ⟨by decide +kernel, hs, by decide +kernel, by decide +kernel⟩
  have hreceiver : IsReceiver recv r :=
    ⟨⟨by decide +kernel, hr, by decide +kernel, by decide +kernel⟩, hrecv.1.1, hrecv.1.2, hrecv.2⟩
  have hbraced : SpelledAs braced
      ((lex recv 0).tokens ++ (BlockForm.braces params hparams).tokens (lex body 0).tokens) := by
    refine ⟨by decide +kernel, ?_⟩
    simp only [BlockForm.tokens, BlockForm.tail, BlockForm.braces]
    decide +kernel
  have hended : SpelledAs ended
      ((lex recv 0).tokens ++ (BlockForm.doEnd params hparams).tokens (lex body 0).tokens) := by
    refine ⟨by decide +kernel, ?_⟩
    simp only [BlockForm.tokens, BlockForm.tail, BlockForm.doEnd]
    decide +kernel
  obtain ⟨hagree, hholds⟩ := blocksAgree_iff hreceiver hcommand hparams hbraced hended
  refine ⟨fun h => ?_, s, hcommand, by rw [hm]; rfl, hholds fun m' hm' => ?_⟩
  · exact Option.some_ne_none m (hm.symm.trans (hagree.1 h))
  · obtain rfl := Option.some.inj (hm.symm.trans hm')
    exact hfinished

end Cookbook
