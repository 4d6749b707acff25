import Cookbook.Proofs.Statement.Fuel
import Cookbook.Proofs.Token.Bounds

/-!
Statements lie in their text. The parser makes up no token and no offset: what stands in a statement
is among the tokens of the file, and its extent ends where one of them does.

* `Statement.Within hi` says that a statement, with all tokens in it, ends by `hi`;
* `Reading.Within` says it of what a call of the parser returns, and every call keeps it;
* `Program.within_ofText` is the case of a whole file.
-/

namespace Cookbook

/-! ### Where statements lie -/

/-- All tokens of a run, with their code, end by `hi`. -/
def RunWithin (hi : Nat) (run : List Token) : Prop := ∀ t ∈ run, t.Between 0 hi

structure Extent.Within (hi : Nat) (e : Extent) : Prop where
  start : e.start ≤ hi
  stop : e.stop ≤ hi

structure Modifier.Within (hi : Nat) (m : Modifier) : Prop where
  condition : RunWithin hi m.condition
  start : m.start ≤ hi

mutual

/-- The statement, with all tokens in it, ends by `hi`; the blocks within heads are left out. -/
def Statement.Within (hi : Nat) : Statement → Prop
  | .command c => c.Within hi
  | .conditional ⟨extent, _, subject, branches, _, _⟩ =>
    extent.Within hi ∧ RunWithin hi subject ∧ branchesWithin hi branches
  | .compound ⟨extent, _, body, _, _⟩ => extent.Within hi ∧ listWithin hi body

def Command.Within (hi : Nat) : Command → Prop
  | ⟨extent, head, block, _, modifier⟩ =>
    extent.Within hi ∧ RunWithin hi head ∧
      (match block with
        | some b => b.Within hi
        | none => True) ∧
      ∀ m ∈ modifier, m.Within hi

def Block.Within (hi : Nat) : Block → Prop
  | ⟨_, opener, closer, _, body⟩ =>
    opener.Between 0 hi ∧ (∀ t ∈ closer, t.Between 0 hi) ∧ listWithin hi body

def listWithin (hi : Nat) : List Statement → Prop
  | [] => True
  | s :: rest => s.Within hi ∧ listWithin hi rest

def branchesWithin (hi : Nat) : List Branch → Prop
  | [] => True
  | ⟨_, condition, body, start⟩ :: rest =>
    (RunWithin hi condition ∧ start ≤ hi ∧ listWithin hi body) ∧ branchesWithin hi rest

end

structure Branch.Within (hi : Nat) (b : Branch) : Prop where
  condition : RunWithin hi b.condition
  start : b.start ≤ hi
  body : listWithin hi b.body

theorem listWithin_iff {hi : Nat} {body : List Statement} :
    listWithin hi body ↔ ∀ s ∈ body, s.Within hi := by
  induction body with
  | nil => simp [listWithin]
  | cons s rest ih => simp [listWithin, ih]

theorem branchesWithin_iff {hi : Nat} {branches : List Branch} :
    branchesWithin hi branches ↔ ∀ b ∈ branches, b.Within hi := by
  induction branches with
  | nil => simp [branchesWithin]
  | cons b rest ih =>
    obtain ⟨word, condition, body, start⟩ := b
    simp only [branchesWithin, ih, List.mem_cons, forall_eq_or_imp]
    exact and_congr_left fun _ => ⟨fun ⟨h₁, h₂, h₃⟩ => ⟨h₁, h₂, h₃⟩, fun h => ⟨h.1, h.2, h.3⟩⟩

theorem Command.within_iff {hi : Nat} {c : Command} :
    c.Within hi ↔ c.extent.Within hi ∧ RunWithin hi c.head ∧ (∀ b ∈ c.block, b.Within hi) ∧
      ∀ m ∈ c.modifier, m.Within hi := by
  obtain ⟨extent, head, block, innerBlocks, modifier⟩ := c
  cases block <;> simp [Command.Within]

theorem Block.within_iff {hi : Nat} {b : Block} :
    b.Within hi ↔ b.opener.Between 0 hi ∧ (∀ t ∈ b.closer, t.Between 0 hi) ∧
      ∀ s ∈ b.body, s.Within hi := by
  obtain ⟨kind, opener, closer, params, body⟩ := b
  simp [Block.Within, listWithin_iff]

theorem RunWithin.sublist {hi : Nat} {run sub : List Token} (h : RunWithin hi run)
    (hsub : sub ⊆ run) : RunWithin hi sub := fun t ht => h t (hsub ht)

theorem RunWithin.append {hi : Nat} {run more : List Token} (h : RunWithin hi run)
    (hmore : RunWithin hi more) : RunWithin hi (run ++ more) := by
  intro t ht
  rcases List.mem_append.1 ht with ht | ht
  · exact h t ht
  · exact hmore t ht

/-! ### Cursors -/

section Bounds

variable {src : TokenSource} {hi : Nat} (hsrc : RunWithin hi src.tokens)

include hsrc

theorem TokenSource.Holds.runWithin {c : Cursor} (hc : src.Holds c) : RunWithin hi c.rest := by
  intro t ht
  rw [show c.rest = src.tokens.drop c.index from hc] at ht
  exact hsrc t (List.mem_of_mem_drop ht)

theorem TokenSource.Holds.lineWithin {c : Cursor} (hc : src.Holds c) (stopAtDo : Bool) :
    RunWithin hi (c.line stopAtDo).1 :=
  (hc.runWithin hsrc).sublist (List.Subset.trans (lineRun_subset_take _ _ _ _) (List.take_subset _ _))

theorem TokenSource.endBefore_le {fallback : Nat} (hf : fallback ≤ hi) (index : Nat) :
    src.endBefore index fallback ≤ hi := by
  unfold TokenSource.endBefore
  split
  · rename_i t ht
    have hmem := List.mem_reverse.1 (List.mem_of_find?_eq_some ht)
    exact (hsrc t (List.mem_of_mem_take hmem)).stop
  · exact hf

end Bounds

/-! ### Commands -/

namespace CommandDraft

structure Within (hi : Nat) (d : CommandDraft) : Prop where
  head : RunWithin hi d.head
  block : ∀ b ∈ d.block, b.Within hi
  modifier : ∀ m ∈ d.modifier, m.Within hi

variable {hi : Nat} {d : CommandDraft}

theorem within_empty (hi : Nat) : CommandDraft.empty.Within hi where
  head := fun _ ht => absurd ht List.not_mem_nil
  block := fun _ hb => absurd hb (by simp [empty])
  modifier := fun _ hm => absurd hm (by simp [empty])

theorem Within.push {t : Token} (h : d.Within hi) (ht : t.Between 0 hi) : (d.push t).Within hi where
  head := by
    intro u hu
    rcases List.mem_cons.1 hu with rfl | hu
    · exact ht
    · exact h.head u hu
  block := h.block
  modifier := h.modifier

theorem Within.addBlock {b : Block} (h : d.Within hi) (hb : b.Within hi) :
    (d.addBlock b).Within hi := by
  unfold CommandDraft.addBlock
  split
  · refine ⟨h.head, ?_, h.modifier⟩
    intro b' hb'
    obtain rfl : b = b' := by simpa using hb'
    exact hb
  · exact ⟨h.head, h.block, h.modifier⟩

theorem Within.addRun {c : Cursor} (h : d.Within hi) (hc : RunWithin hi c.rest) (index : Nat) :
    (d.addRun c index).Within hi where
  head := by
    refine RunWithin.append ?_ h.head
    intro t ht
    have ht := (List.mem_filter.1 (List.mem_reverse.1 ht)).1
    exact hc t (List.mem_of_mem_take ht)
  block := h.block
  modifier := h.modifier

theorem Within.addModifier {t : Token} {condition : List Token} (h : d.Within hi)
    (ht : t.Between 0 hi) (hcondition : RunWithin hi condition) :
    (d.addModifier t condition).Within hi where
  head := h.head
  block := h.block
  modifier := by
    intro m hm
    obtain rfl : (⟨modifierWord t, condition, t.start⟩ : Modifier) = m := Option.some.inj hm
    exact ⟨hcondition, ht.order.trans ht.stop⟩

theorem Within.stop_le {first : Token} (h : d.Within hi) (hfirst : first.Between 0 hi) :
    d.stop first ≤ hi := by
  have hrun : ∀ {run : List Token} {o : Option Token} (n : Nat), RunWithin hi run →
      (∀ t ∈ o, t ∈ run) → n ≤ hi → (o.map Token.stop).getD n ≤ hi := by
    intro run o n hrun ho hn
    cases o with
    | none => exact hn
    | some t => exact (hrun t (ho t rfl)).stop
  unfold CommandDraft.stop
  refine max_le (max_le ?_ ?_) ?_
  · cases hb : d.block with
    | none => exact Nat.zero_le _
    | some b =>
      obtain ⟨hopener, hcloser, -⟩ := Block.within_iff.1 (h.block b hb)
      simp only [Option.map_some, Option.getD_some]
      cases hc : b.closer with
      | none => exact hopener.stop
      | some t => exact (hcloser t hc).stop
  · exact hrun _ h.head (fun t ht => List.mem_of_mem_head? ht) hfirst.stop
  · cases hm : d.modifier with
    | none => exact Nat.zero_le _
    | some m =>
      exact hrun _ (h.modifier m hm).condition (fun t ht => List.mem_of_mem_getLast? ht) (Nat.zero_le _)

theorem Within.build {first : Token} (h : d.Within hi) (hfirst : first.Between 0 hi) (start : Nat) :
    (d.build first start).Within hi := by
  rw [Command.within_iff]
  refine ⟨⟨hfirst.order.trans hfirst.stop, h.stop_le hfirst⟩, ?_, h.block, h.modifier⟩
  exact fun t ht => h.head t (List.mem_reverse.1 ht)

theorem Within.cutHead (h : d.Within hi) (src : TokenSource) (index : Nat) :
    (d.cutHead src index).Within hi := by
  refine ⟨?_, h.block, h.modifier⟩
  unfold CommandDraft.cutHead
  dsimp only
  split
  · exact h.head.sublist (List.dropWhile_suffix _).subset
  · exact h.head

theorem Within.finish {first : Token} (h : d.Within hi) (hfirst : first.Between 0 hi)
    (src : TokenSource) (start : Nat) (c : Cursor) : (d.finish src first start c).value.Within hi := by
  cases hopen : d.openers with
  | nil =>
    rw [finish_nil _ _ _ _ hopen]
    exact h.build hfirst start
  | cons unclosed more =>
    rw [finish_cons _ _ _ _ hopen]
    exact (h.cutHead src _).build hfirst start

end CommandDraft

/-! ### What each call returns -/

/-- What a call returns ends by `hi`, a command if what was read of it does. -/
def Reading.Within (hi : Nat) : Reading → Prop
  | ⟨.statements _ _, p⟩ => ∀ s ∈ p.value, s.Within hi
  | ⟨.statement _ _, p⟩ => p.value.Within hi
  | ⟨.block _ _ _, p⟩ => p.value.Within hi
  | ⟨.branches _ _, p⟩ => ∀ b ∈ p.value.1, b.Within hi
  | ⟨.conditional _ _, p⟩ => (Statement.conditional p.value).Within hi
  | ⟨.compound _ _, p⟩ => (Statement.compound p.value).Within hi
  | ⟨.command first _ d _, p⟩ => first.Between 0 hi → d.Within hi → p.value.Within hi

theorem closeBody_within {src : TokenSource} {hi : Nat} {isCloser : Token → Bool} {opener : Token}
    {fault : Fault} {p : Parsed (List Statement)} (h : ∀ s ∈ p.value, s.Within hi) :
    ∀ s ∈ (closeBody src isCloser opener fault p).body, s.Within hi := by
  rcases closeBody_cases src isCloser opener fault p with ⟨t, -, -, he⟩ | ⟨-, he⟩
  · rw [he]
    exact h
  · rw [he]
    exact fun s hs => h s ((List.takeWhile_prefix _).subset hs)

theorem resyncBranches_within {src : TokenSource} {hi : Nat} {opener : Token}
    {branches : List Branch} (h : ∀ b ∈ branches, b.Within hi) :
    ∀ b ∈ (resyncBranches src opener branches).1, b.Within hi := by
  induction branches with
  | nil => exact h
  | cons b more ih =>
    have hb := h b List.mem_cons_self
    cases more with
    | nil =>
      intro b' hb'
      obtain rfl := List.mem_singleton.1 hb'
      refine ⟨hb.condition, hb.start, ?_⟩
      rw [listWithin_iff]
      exact fun s hs => listWithin_iff.1 hb.body s ((List.takeWhile_prefix _).subset hs)
    | cons b'' more =>
      intro b' hb'
      rcases List.mem_cons.1 hb' with rfl | hb'
      · exact hb
      · exact ih (fun x hx => h x (List.mem_cons_of_mem _ hx)) b' hb'

namespace ParserCall

variable {src : TokenSource} {hi : Nat} (hsrc : RunWithin hi src.tokens)

include hsrc

theorem between_of_head? {c : Cursor} {t : Token} (hc : src.Holds c) (ht : c.rest.head? = some t) :
    t.Between 0 hi :=
  hc.runWithin hsrc t (List.mem_of_mem_head? ht)

theorem branches_cons_within {branchWord : BranchWord} {t : Token} {c : Cursor} {body : List Statement}
    {more : List Branch} (hc : src.Holds c) (ht : t.Between 0 hi) (hbody : ∀ s ∈ body, s.Within hi)
    (hmore : ∀ b ∈ more, b.Within hi) :
    ∀ b ∈ ⟨branchWord, (branchHead branchWord c).1, body, t.start⟩ :: more, Branch.Within hi b := by
  refine List.forall_mem_cons.2 ⟨⟨?_, ht.order.trans ht.stop, listWithin_iff.2 hbody⟩, hmore⟩
  show RunWithin hi (branchHead branchWord c).1
  unfold branchHead
  split
  · exact fun u hu => absurd hu List.not_mem_nil
  · exact hc.lineWithin hsrc false

omit hsrc in
theorem statements_within {stop : Token → Bool} {c : Cursor} :
    (statements stop c).Keeps src (Reading.Within hi) := by
  unfold Keeps
  rw [script]
  cases listStep stop c.skipSeparators.rest with
  | done => exact fun s hs => absurd hs List.not_mem_nil
  | stray t => exact fun more hmore => hmore.2
  | pass => exact fun more hmore => hmore.2
  | statement t => exact fun first hfirst more hmore => List.forall_mem_cons.2 ⟨hfirst.2, hmore.2⟩

theorem statement_within {t : Token} {c : Cursor} (h : (statement t c).Placed src) :
    (statement t c).Keeps src (Reading.Within hi) := by
  unfold Keeps
  rw [script]
  split_ifs
  · exact fun p hp => hp.2
  · exact fun p hp => hp.2
  · exact fun p hp => hp.2 (between_of_head? hsrc h.1 h.2.1) (CommandDraft.within_empty hi)

theorem block_within {opener : Token} {kind : BlockKind} {c : Cursor}
    (h : (block opener kind c).Placed src) : (block opener kind c).Keeps src (Reading.Within hi) := by
  intro body hbody
  refine Block.within_iff.2 ⟨between_of_head? hsrc h.1 h.2, ?_, closeBody_within hbody.2⟩
  rcases closeBody_cases src kind.closes opener kind.fault body with ⟨u, hhead, -, he⟩ | ⟨-, he⟩
  · intro t ht
    dsimp only at ht
    rw [he] at ht
    obtain rfl := Option.some.inj ht
    exact between_of_head? hsrc hbody.1.1 hhead
  · dsimp only
    rw [he]
    exact fun t ht => absurd ht (by simp)

theorem branches_within {word : ConditionalWord} {c : Cursor} (hc : src.Holds c) :
    (branches word c).Keeps src (Reading.Within hi) := by
  have hs := hc.skipSeparators
  unfold Keeps
  rw [script]
  cases hstep : branchStep word c.skipSeparators.rest with
  | done => exact fun b hb => absurd hb List.not_mem_nil
  | close t => exact fun b hb => absurd hb List.not_mem_nil
  | branch branchWord t =>
    obtain ⟨rest, hrest⟩ := branchStep_branch hstep
    have ht : t.Between 0 hi := between_of_head? hsrc hs (by rw [hrest]; rfl)
    exact fun body hbody more hmore => branches_cons_within hsrc hs.next ht hbody.2 hmore.2

theorem conditional_within {opener : Token} {c : Cursor} (h : (conditional opener c).Placed src) :
    (conditional opener c).Keeps src (Reading.Within hi) := by
  obtain ⟨hc, hhead⟩ := h
  have ht := between_of_head? hsrc hc hhead
  have hbuild : ∀ (branches : List Branch) (closer : Option Token) (c' : Cursor),
      (∀ b ∈ branches, b.Within hi) →
        (Statement.conditional (buildConditional src opener c.index (c.next.line false).1 branches
          closer c')).Within hi := by
    intro branches closer c' hb
    refine ⟨⟨ht.order.trans ht.stop, src.endBefore_le hsrc ht.stop _⟩, ?_, branchesWithin_iff.2 hb⟩
    split
    · exact hc.next.lineWithin hsrc false
    · exact fun t ht => absurd ht List.not_mem_nil
  have hclose : ∀ read : Parsed (List Branch × Option Token), (∀ b ∈ read.value.1, b.Within hi) →
      (Statement.conditional
        (closeConditional src opener c.index (c.next.line false).1 read).value).Within hi := by
    intro read hread
    unfold closeConditional
    split
    · exact hbuild _ _ _ hread
    · exact hbuild _ _ _ (resyncBranches_within hread)
  unfold Keeps
  rw [script]
  dsimp only
  split_ifs
  · exact fun read hread => hclose read hread.2
  · exact fun body hbody more hmore =>
      hclose _ (branches_cons_within hsrc hc.next ht hbody.2 hmore.2)

theorem compound_within {opener : Token} {c : Cursor} (h : (compound opener c).Placed src) :
    (compound opener c).Keeps src (Reading.Within hi) := by
  have ht := between_of_head? hsrc h.1 h.2
  intro body hbody
  exact ⟨⟨ht.order.trans ht.stop, src.endBefore_le hsrc ht.stop _⟩,
    listWithin_iff.2 (closeBody_within hbody.2)⟩

theorem command_within {first : Token} {start : Nat} {d : CommandDraft} {c : Cursor}
    (hc : src.Holds c) : (command first start d c).Keeps src (Reading.Within hi) := by
  have htoken : ∀ {t}, (d.step c.rest).token? = some t → t.Between 0 hi := by
    intro t ht
    obtain ⟨⟨rest, hrest⟩, -⟩ := CommandDraft.step_token ht
    exact between_of_head? hsrc hc (by rw [hrest]; rfl)
  unfold Keeps
  rw [script]
  cases hstep : d.step c.rest with
  | done => exact fun ht hd => hd.finish ht src start c
  | skip => exact fun more hmore => hmore.2
  | push t => exact fun more hmore ht hd => hmore.2 ht (hd.push (htoken (hstep ▸ rfl)))
  | modifier t =>
    have hline := hc.next.lineWithin hsrc false
    exact fun ht hd => (hd.addModifier (htoken (hstep ▸ rfl)) hline).finish ht src start _
  | conditional t =>
    exact fun nested _ more hmore ht hd => hmore.2 ht (hd.addRun (hc.runWithin hsrc) _)
  | compound t =>
    exact fun nested _ more hmore ht hd => hmore.2 ht (hd.addRun (hc.runWithin hsrc) _)
  | block t kind =>
    intro block hblock
    dsimp only
    split
    · exact fun more hmore ht hd => hmore.2 ht (hd.addBlock hblock.2)
    · exact fun ht hd => (hd.addBlock hblock.2).finish ht src start _

theorem keeps_within {call : ParserCall} (hp : call.Placed src) : call.Keeps src (Reading.Within hi) := by
  cases call with
  | statements stop c => exact statements_within
  | statement t c => exact statement_within hsrc hp
  | block opener kind c => exact block_within hsrc hp
  | branches word c => exact branches_within hsrc hp
  | conditional opener c => exact conditional_within hsrc hp
  | compound opener c => exact compound_within hsrc hp
  | command first start d c => exact command_within hsrc hp.1

end ParserCall

/-- The statements of a file lie in its text. -/
theorem Program.within_ofText (text : Text) :
    ∀ s ∈ (Program.ofText text).statements, s.Within text.length := by
  have hsrc : RunWithin text.length (lex text 0).tokens := by
    have := lex_between text 0
    rwa [Nat.zero_add] at this
  obtain ⟨log, hends⟩ := (TokenSource.ofText text).exists_endsIn_parsed
  have hkeeps : ∀ call : ParserCall, call.Placed (TokenSource.ofText text) →
      call.Keeps (TokenSource.ofText text) (Reading.Within text.length) :=
    fun _ hp => ParserCall.keeps_within hsrc hp
  exact hends.satisfies hkeeps ((TokenSource.ofText text).holds_cursor 0)

end Cookbook
