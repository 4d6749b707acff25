import Cookbook.Proofs.Statement.Separation

/-!
Commands cover what they are made of. The tokens of a head and the closer of a block lie within the
extent of the command, at any depth; but a command whose block was never closed ends with the word that
opens the block, and what stands in the block lies behind it.

* `EveryCommand` says something of all commands of a list of statements, at any depth;
* `Command.Covers` is what a command covers;
* `Reading.Covered` says it of what a call of the parser returns, and every call keeps it;
* `Program.everyCommand_covers` is the result for whole files.
-/

namespace Cookbook

/-! ### Commands at any depth -/

/-- All commands of the statements, or deeper in their blocks, branches and bodies, satisfy `P`. -/
def EveryCommand (P : Command → Prop) (body : List Statement) : Prop :=
  ∀ inner, ListIn inner body → ∀ c, Statement.command c ∈ inner → P c

namespace EveryCommand

variable {P : Command → Prop}

theorem of_listIn {inner body : List Statement} (h : EveryCommand P body) (hin : ListIn inner body) :
    EveryCommand P inner := fun deeper hdeeper => h deeper (hdeeper.trans hin)

theorem of_subset {body more : List Statement} (h : EveryCommand P body) (hsub : more ⊆ body) :
    EveryCommand P more := by
  intro inner hin c hc
  cases hin with
  | here => exact h body .here c (hsub hc)
  | block hmem hblock hin => exact h inner (.block (hsub hmem) hblock hin) c hc
  | branch hmem hb hin => exact h inner (.branch (hsub hmem) hb hin) c hc
  | compound hmem hin => exact h inner (.compound (hsub hmem) hin) c hc

theorem nil : EveryCommand P [] := by
  intro inner hin c hc
  cases hin with
  | here => exact absurd hc List.not_mem_nil
  | block hmem => exact absurd hmem List.not_mem_nil
  | branch hmem => exact absurd hmem List.not_mem_nil
  | compound hmem => exact absurd hmem List.not_mem_nil

theorem cons {s : Statement} {rest : List Statement} (hs : EveryCommand P [s])
    (hrest : EveryCommand P rest) : EveryCommand P (s :: rest) := by
  have hpick : ∀ {u : Statement}, u ∈ s :: rest → u ∈ [s] ∨ u ∈ rest := by
    intro u hu
    exact (List.mem_cons.1 hu).imp_left List.mem_singleton.2
  intro inner hin c hc
  cases hin with
  | here => exact (hpick hc).elim (hs _ .here c) (hrest _ .here c)
  | block hmem hblock hin =>
    exact (hpick hmem).elim (fun h => hs _ (.block h hblock hin) c hc) fun h =>
      hrest _ (.block h hblock hin) c hc
  | branch hmem hb hin =>
    exact (hpick hmem).elim (fun h => hs _ (.branch h hb hin) c hc) fun h =>
      hrest _ (.branch h hb hin) c hc
  | compound hmem hin =>
    exact (hpick hmem).elim (fun h => hs _ (.compound h hin) c hc) fun h =>
      hrest _ (.compound h hin) c hc

theorem command {cmd : Command} (hcmd : P cmd) (h : ∀ b ∈ cmd.block, EveryCommand P b.body) :
    EveryCommand P [.command cmd] := by
  intro inner hin c hc
  cases hin with
  | here =>
    obtain rfl := Statement.command.inj (List.mem_singleton.1 hc)
    exact hcmd
  | block hmem hblock hin =>
    obtain rfl := Statement.command.inj (List.mem_singleton.1 hmem)
    exact h _ hblock inner hin c hc
  | branch hmem => simp at hmem
  | compound hmem => simp at hmem

theorem conditional {cond : Conditional} (h : ∀ b ∈ cond.branches, EveryCommand P b.body) :
    EveryCommand P [.conditional cond] := by
  intro inner hin c hc
  cases hin with
  | here => simp at hc
  | block hmem => simp at hmem
  | branch hmem hb hin =>
    obtain rfl := Statement.conditional.inj (List.mem_singleton.1 hmem)
    exact h _ hb inner hin c hc
  | compound hmem => simp at hmem

theorem compound {comp : Compound} (h : EveryCommand P comp.body) : EveryCommand P [.compound comp] := by
  intro inner hin c hc
  cases hin with
  | here => simp at hc
  | block hmem => simp at hmem
  | branch hmem => simp at hmem
  | compound hmem hin =>
    obtain rfl := Statement.compound.inj (List.mem_singleton.1 hmem)
    exact h inner hin c hc

end EveryCommand

/-! ### What a command covers -/

/-- The command covers its head, and its block if that is closed. Otherwise it ends with the word that
opens the block. -/
structure Command.Covers (src : TokenSource) (c : Command) : Prop where
  head : ∀ t ∈ c.head, t ∈ src.tokens ∧ c.extent.start ≤ t.start ∧ t.stop ≤ c.extent.stop
  closed : ∀ b ∈ c.block, ∀ t ∈ b.closer, t.stop ≤ c.extent.stop
  unclosed : ∀ b ∈ c.block, b.closer = none → c.extent.stop = b.opener.stop

namespace CommandDraft

/-- What was read, before an index, of the command that starts at another: its head, the last token
first, and perhaps a block, which is closed. -/
structure Covers (src : TokenSource) (start index : Nat) (d : CommandDraft) : Prop where
  head : ∀ t ∈ d.head, ∃ k, start ≤ k ∧ k < index ∧ src.tokens[k]? = some t
  ordered : d.head.Pairwise fun t u => u.stop ≤ t.stop
  block : ∀ b ∈ d.block, b.closer ≠ none ∧ EveryCommand (Command.Covers src) b.body
  modifier : d.modifier = none

variable {src : TokenSource} {start index index' : Nat} {d : CommandDraft}

theorem covers_empty (src : TokenSource) (start index : Nat) : empty.Covers src start index where
  head := fun _ ht => absurd ht List.not_mem_nil
  ordered := .nil
  block := fun _ hb => absurd hb (by simp [empty])
  modifier := rfl

theorem Covers.mono (h : d.Covers src start index) (hle : index ≤ index') : d.Covers src start index' :=
  ⟨fun t ht => (h.head t ht).imp fun _ ⟨hk, hlt, htok⟩ => ⟨hk, hlt.trans_le hle, htok⟩, h.ordered, h.block,
    h.modifier⟩

section InOrder

variable (hsrc : src.InOrder)

include hsrc

theorem Covers.push {t : Token} (h : d.Covers src start index) (ht : src.tokens[index]? = some t)
    (hstart : start ≤ index) : (d.push t).Covers src start (index + 1) where
  head := by
    intro u hu
    rcases List.mem_cons.1 hu with rfl | hu
    · exact ⟨index, hstart, Nat.lt_succ_self _, ht⟩
    · exact (h.mono (Nat.le_succ _)).head u hu
  ordered := by
    refine .cons (fun u hu => ?_) h.ordered
    obtain ⟨k, -, hlt, hu⟩ := h.head u hu
    exact (hsrc.stop_le_start hu ht hlt).trans (hsrc.start_lt_stop ht).le
  block := h.block
  modifier := h.modifier

/-- A run of tokens that follows what was read goes on in order. -/
theorem Covers.addRun {c : Cursor} (h : d.Covers src start c.index) (hc : src.Holds c)
    (hstart : start ≤ c.index) (hle : c.index ≤ index) : (d.addRun c index).Covers src start index := by
  have hrun : ∀ t ∈ ((c.rest.take (index - c.index)).filter (!·.isNewline)).reverse,
      ∃ k, c.index ≤ k ∧ k < index ∧ src.tokens[k]? = some t := by
    intro t ht
    obtain ⟨n, hn, rfl⟩ := List.mem_iff_getElem.1 (List.mem_filter.1 (List.mem_reverse.1 ht)).1
    rw [List.length_take] at hn
    refine ⟨c.index + n, by omega, by omega, ?_⟩
    rw [List.getElem_take, ← List.getElem?_drop, ← show c.rest = _ from hc]
    exact List.getElem?_eq_getElem (by omega)
  refine ⟨fun t ht => ?_, ?_, h.block, h.modifier⟩
  · rcases List.mem_append.1 ht with ht | ht
    · obtain ⟨k, hk, hlt, htok⟩ := hrun t ht
      exact ⟨k, hstart.trans hk, hlt, htok⟩
    · exact (h.mono hle).head t ht
  · refine List.pairwise_append.2 ⟨List.pairwise_reverse.2 ?_, h.ordered, fun t ht u hu => ?_⟩
    · rw [show c.rest = src.tokens.drop c.index from hc]
      have hsub := (List.filter_sublist (p := fun t : Token => !t.isNewline)).trans
        ((List.take_sublist (index - c.index) _).trans (List.drop_sublist c.index src.tokens))
      refine (hsrc.pairwise.sublist hsub).imp_of_mem fun {t u} _ hu hle => ?_
      exact hle.trans (hsrc.nonempty u (hsub.subset hu)).le
    · obtain ⟨k, hk, -, ht⟩ := hrun t ht
      obtain ⟨n, -, hn, hu⟩ := h.head u hu
      exact (hsrc.stop_le_start hu ht (hn.trans_le hk)).trans (hsrc.start_lt_stop ht).le

theorem build_covers {first : Token} (hfirst : src.tokens[start]? = some first)
    (hhead : ∀ t ∈ d.head, ∃ k, start ≤ k ∧ src.tokens[k]? = some t)
    (hordered : d.head.Pairwise fun t u => u.stop ≤ t.stop)
    (hblock : ∀ b ∈ d.block, EveryCommand (Command.Covers src) b.body)
    (hunclosed : ∀ b ∈ d.block, b.closer = none → d.stop first = b.opener.stop) :
    EveryCommand (Command.Covers src) [.command (d.build first start)] := by
  refine .command ⟨fun t ht => ?_, fun b hb t ht => ?_, hunclosed⟩ hblock
  · have ht : t ∈ d.head := List.mem_reverse.1 ht
    obtain ⟨k, hk, htok⟩ := hhead t ht
    refine ⟨List.mem_of_getElem? htok, hsrc.start_le_start hfirst htok hk, ?_⟩
    have hlast : t.stop ≤ (d.head.head?.map Token.stop).getD first.stop := by
      cases hd : d.head with
      | nil => exact absurd (hd ▸ ht) List.not_mem_nil
      | cons u rest =>
        rw [hd] at ht hordered
        rcases List.mem_cons.1 ht with rfl | ht
        · exact le_rfl
        · exact List.rel_of_pairwise_cons hordered ht
    exact hlast.trans ((le_max_right _ _).trans (le_max_left _ _))
  · have hb : d.block = some b := hb
    have ht : b.closer = some t := ht
    show t.stop ≤ d.stop first
    unfold CommandDraft.stop
    rw [hb, Option.map_some, Option.getD_some, ht, Option.map_some, Option.getD_some]
    exact (le_max_left _ _).trans (le_max_left _ _)

omit hsrc in
/-- What is left of a head that is cut is in it, in order. -/
theorem sublist_cutHead (src : TokenSource) (d : CommandDraft) (index : Nat) :
    List.Sublist (d.cutHead src index).head d.head := by
  unfold cutHead
  dsimp only
  split
  · exact (List.dropWhile_suffix _).sublist
  · exact List.Sublist.refl _

/-- A command ends with what was read, or is cut within it. -/
theorem finish_covers {first : Token} {c : Cursor} (hfirst : src.tokens[start]? = some first)
    (hhead : ∀ t ∈ d.head, ∃ k, start ≤ k ∧ src.tokens[k]? = some t)
    (hordered : d.head.Pairwise fun t u => u.stop ≤ t.stop)
    (hblock : ∀ b ∈ d.block, EveryCommand (Command.Covers src) b.body)
    (hunclosed : ∀ b ∈ d.block, b.closer = none → d.openers = [] ∧ d.stop first = b.opener.stop) :
    EveryCommand (Command.Covers src) [.command (d.finish src first start c).value] := by
  cases hopen : d.openers with
  | nil =>
    rw [finish_nil _ _ _ _ hopen]
    exact build_covers hsrc hfirst hhead hordered hblock fun b hb hnone => (hunclosed b hb hnone).2
  | cons unclosed more =>
    rw [finish_cons _ _ _ _ hopen]
    have hcut := sublist_cutHead src d (src.resyncToken unclosed (start + 1))
    refine build_covers hsrc hfirst (fun t ht => hhead t (hcut.subset ht)) (hordered.sublist hcut) hblock ?_
    exact fun b hb hnone => absurd (hopen.symm.trans (hunclosed b hb hnone).1) (by simp)

theorem Covers.finish (h : d.Covers src start index) {first : Token} {c : Cursor}
    (hfirst : src.tokens[start]? = some first) :
    EveryCommand (Command.Covers src) [.command (d.finish src first start c).value] :=
  finish_covers hsrc hfirst (fun t ht => (h.head t ht).imp fun _ ⟨hk, _, htok⟩ => ⟨hk, htok⟩) h.ordered
    (fun b hb => (h.block b hb).2) fun b hb hnone => absurd hnone (h.block b hb).1

omit hsrc in
theorem Covers.addBlock {b : Block} (h : d.Covers src start index) (hb : b.closer ≠ none)
    (hbody : EveryCommand (Command.Covers src) b.body) : (d.addBlock b).Covers src start index := by
  unfold CommandDraft.addBlock
  split
  · refine ⟨h.head, h.ordered, fun b' hb' => ?_, h.modifier⟩
    obtain rfl := Option.some.inj hb'
    exact ⟨hb, hbody⟩
  · exact ⟨h.head, h.ordered, h.block, h.modifier⟩

/-- A block that was never closed ends the command, with the word that opens it if it is the command's
own. -/
theorem Covers.finish_unclosed {b : Block} {c : Cursor} {first : Token} (h : d.Covers src start index)
    (hfirst : src.tokens[start]? = some first) (hle : start ≤ index)
    (hopener : src.tokens[index]? = some b.opener) (hb : b.closer = none)
    (hbody : EveryCommand (Command.Covers src) b.body) :
    EveryCommand (Command.Covers src) [.command ((d.addBlock b).finish src first start c).value] := by
  unfold CommandDraft.addBlock
  split
  · rename_i hown
    simp only [Bool.and_eq_true, List.isEmpty_iff] at hown
    refine finish_covers hsrc hfirst (fun t ht => (h.head t ht).imp fun _ ⟨hk, _, htok⟩ => ⟨hk, htok⟩)
      h.ordered ?_ ?_
    · rintro b' hb'
      obtain rfl := Option.some.inj hb'
      exact hbody
    · rintro b' hb' -
      obtain rfl := Option.some.inj hb'
      refine ⟨hown.1, ?_⟩
      -- what stands before the opener ends no later than the opener
      have hlast : (d.head.head?.map Token.stop).getD first.stop ≤ b.opener.stop := by
        cases hd : d.head with
        | nil =>
          rcases Nat.lt_or_eq_of_le hle with hlt | rfl
          · exact (hsrc.stop_le_start hfirst hopener hlt).trans (hsrc.start_lt_stop hopener).le
          · exact (congrArg Token.stop (Option.some.inj (hfirst.symm.trans hopener))).le
        | cons u rest =>
          obtain ⟨k, -, hlt, hu⟩ := h.head u (by rw [hd]; exact List.mem_cons_self)
          exact (hsrc.stop_le_start hu hopener hlt).trans (hsrc.start_lt_stop hopener).le
      simp only [CommandDraft.stop, hb, h.modifier, Option.map_some, Option.map_none, Option.getD_some,
        Option.getD_none, Option.bind_none, Nat.max_zero]
      exact max_eq_left hlast
  · exact Covers.finish hsrc (d := { d with innerBlocks := b :: d.innerBlocks })
      ⟨h.head, h.ordered, h.block, h.modifier⟩ hfirst

end InOrder

end CommandDraft

/-! ### What each call returns -/

/-- All commands in what a call returns cover what they are made of, the command of a draft if what was
read of it does. -/
def Reading.Covered (src : TokenSource) : Reading → Prop
  | ⟨.statements _ _, p⟩ => EveryCommand (Command.Covers src) p.value
  | ⟨.statement _ _, p⟩ => EveryCommand (Command.Covers src) [p.value]
  | ⟨.block opener _ _, p⟩ => p.value.opener = opener ∧ EveryCommand (Command.Covers src) p.value.body
  | ⟨.branches _ _, p⟩ => ∀ b ∈ p.value.1, EveryCommand (Command.Covers src) b.body
  | ⟨.conditional _ _, p⟩ => EveryCommand (Command.Covers src) [.conditional p.value]
  | ⟨.compound _ _, p⟩ => EveryCommand (Command.Covers src) p.value.body
  | ⟨.command first start d c, p⟩ =>
    src.tokens[start]? = some first → d.Covers src start c.index →
      EveryCommand (Command.Covers src) [.command p.value]

theorem closeBody_subset (src : TokenSource) (isCloser : Token → Bool) (opener : Token) (fault : Fault)
    (p : Parsed (List Statement)) : (closeBody src isCloser opener fault p).body ⊆ p.value := by
  rcases closeBody_cases src isCloser opener fault p with ⟨t, -, -, he⟩ | ⟨-, he⟩
  · rw [he]
    exact List.Subset.refl _
  · rw [he]
    exact (List.takeWhile_prefix _).subset

/-- A cut leaves of each branch some of its statements. -/
theorem resyncBranches_subset (src : TokenSource) (opener : Token) {branches : List Branch} :
    ∀ b ∈ (resyncBranches src opener branches).1, ∃ b' ∈ branches, b.body ⊆ b'.body := by
  induction branches with
  | nil => exact fun b hb => absurd hb List.not_mem_nil
  | cons first more ih =>
    cases more with
    | nil =>
      intro b hb
      obtain rfl := List.mem_singleton.1 hb
      exact ⟨first, List.mem_cons_self, (List.takeWhile_prefix _).subset⟩
    | cons second more =>
      intro b hb
      rcases List.mem_cons.1 hb with rfl | hb
      · exact ⟨b, List.mem_cons_self, List.Subset.refl _⟩
      · obtain ⟨b', hb', hsub⟩ := ih b hb
        exact ⟨b', List.mem_cons_of_mem _ hb', hsub⟩

theorem everyCommand_closeBody {P : Command → Prop} {src : TokenSource} {isCloser : Token → Bool}
    {opener : Token} {fault : Fault} {p : Parsed (List Statement)} (h : EveryCommand P p.value) :
    EveryCommand P (closeBody src isCloser opener fault p).body :=
  h.of_subset (closeBody_subset src isCloser opener fault p)

theorem everyCommand_resyncBranches {P : Command → Prop} {src : TokenSource} {opener : Token}
    {branches : List Branch} (h : ∀ b ∈ branches, EveryCommand P b.body) :
    ∀ b ∈ (resyncBranches src opener branches).1, EveryCommand P b.body := by
  intro b hb
  obtain ⟨b', hb', hsub⟩ := resyncBranches_subset src opener b hb
  exact (h b' hb').of_subset hsub

namespace ParserCall

variable {src : TokenSource}

theorem statements_covered (stop : Token → Bool) (c : Cursor) :
    (statements stop c).Keeps src (Reading.Covered src) := by
  unfold Keeps
  rw [script]
  cases listStep stop c.skipSeparators.rest with
  | done => exact EveryCommand.nil
  | stray t => exact fun more hmore => hmore.2
  | pass => exact fun more hmore => hmore.2
  | statement t => exact fun first hfirst more hmore => EveryCommand.cons hfirst.2 hmore.2

theorem statement_covered {t : Token} {c : Cursor} (h : (statement t c).Placed src) :
    (statement t c).Keeps src (Reading.Covered src) := by
  unfold Keeps
  rw [script]
  split_ifs
  · exact fun p hp => hp.2
  · exact fun p hp => EveryCommand.compound hp.2
  · exact fun p hp => hp.2 (h.1.getElem? h.2.1) (CommandDraft.covers_empty src _ _)

theorem branches_covered (word : ConditionalWord) (c : Cursor) :
    (branches word c).Keeps src (Reading.Covered src) := by
  unfold Keeps
  rw [script]
  cases branchStep word c.skipSeparators.rest with
  | done => exact fun b hb => absurd hb List.not_mem_nil
  | close t => exact fun b hb => absurd hb List.not_mem_nil
  | branch branchWord t => exact fun body hbody more hmore => List.forall_mem_cons.2 ⟨hbody.2, hmore.2⟩

theorem conditional_covered (opener : Token) (c : Cursor) :
    (conditional opener c).Keeps src (Reading.Covered src) := by
  have hclose : ∀ read : Parsed (List Branch × Option Token),
      (∀ b ∈ read.value.1, EveryCommand (Command.Covers src) b.body) →
        EveryCommand (Command.Covers src)
          [.conditional (closeConditional src opener c.index (c.next.line false).1 read).value] := by
    intro read hread
    unfold closeConditional
    split
    · exact .conditional hread
    · exact .conditional (everyCommand_resyncBranches hread)
  unfold Keeps
  rw [script]
  dsimp only
  split_ifs
  · exact fun read hread => hclose read hread.2
  · exact fun body hbody more hmore => hclose _ (List.forall_mem_cons.2 ⟨hbody.2, hmore.2⟩)

theorem command_covered (hsrc : src.InOrder) {first : Token} {start : Nat} {d : CommandDraft} {c : Cursor}
    (h : (command first start d c).Placed src) :
    (command first start d c).Keeps src (Reading.Covered src) := by
  obtain ⟨hc, hle, -⟩ := h
  have htoken : ∀ {t}, (d.step c.rest).token? = some t → src.tokens[c.index]? = some t := by
    intro t ht
    obtain ⟨⟨rest, hrest⟩, -⟩ := CommandDraft.step_token ht
    exact hc.getElem? (by rw [hrest]; rfl)
  unfold Keeps
  rw [script]
  cases hstep : d.step c.rest with
  | done => exact fun hfirst hd => hd.finish hsrc hfirst
  | skip => exact fun more hmore hfirst hd => hmore.2 hfirst (hd.mono (Nat.le_succ _))
  | push t => exact fun more hmore hfirst hd => hmore.2 hfirst (hd.push hsrc (htoken (hstep ▸ rfl)) hle)
  | modifier t =>
    intro hfirst hd
    refine CommandDraft.finish_covers hsrc hfirst (d := d.addModifier t (c.next.line false).1)
      (fun t ht => ?_) hd.ordered (fun b hb => (hd.block b hb).2) fun b hb hnone =>
        absurd hnone (hd.block b hb).1
    obtain ⟨k, hk, -, htoken⟩ := hd.head t ht
    exact ⟨k, hk, htoken⟩
  | conditional t =>
    intro nested hnested more hmore hfirst hd
    exact hmore.2 hfirst (hd.addRun hsrc hc hle ((Nat.le_succ _).trans hnested.1.2))
  | compound t =>
    intro nested hnested more hmore hfirst hd
    exact hmore.2 hfirst (hd.addRun hsrc hc hle ((Nat.le_succ _).trans hnested.1.2))
  | block t kind =>
    rintro block ⟨hend, hopener, hbody⟩
    dsimp only
    split
    · rename_i closer hcloser
      intro more hmore hfirst hd
      have hwide := hd.mono ((Nat.le_succ _).trans hend.2)
      exact hmore.2 hfirst (hwide.addBlock (by rw [hcloser]; simp) hbody)
    · rename_i hnone
      intro hfirst hd
      have ht : src.tokens[c.index]? = some block.value.opener := by
        rw [hopener]
        exact htoken (hstep ▸ rfl)
      exact hd.finish_unclosed hsrc hfirst hle ht hnone hbody

theorem keeps_covered (hsrc : src.InOrder) {call : ParserCall} (hp : call.Placed src) :
    call.Keeps src (Reading.Covered src) := by
  cases call with
  | statements stop c => exact statements_covered stop c
  | statement t c => exact statement_covered hp
  | block opener kind c => exact fun body hbody => ⟨rfl, everyCommand_closeBody hbody.2⟩
  | branches word c => exact branches_covered word c
  | conditional opener c => exact conditional_covered opener c
  | compound opener c => exact fun body hbody => everyCommand_closeBody hbody.2
  | command first start d c => exact command_covered hsrc hp

end ParserCall

/-- The commands of a file, at any depth, cover what they are made of. -/
theorem Program.everyCommand_covers (text : Text) :
    EveryCommand (Command.Covers (TokenSource.ofText text)) (Program.ofText text).statements := by
  have hsrc := TokenSource.inOrder_ofText text
  obtain ⟨log, hends⟩ := (TokenSource.ofText text).exists_endsIn_parsed
  rw [Program.statements_ofText]
  exact hends.satisfies (P := Reading.Covered (TokenSource.ofText text))
    (fun _ hp => ParserCall.keeps_covered hsrc hp) ((TokenSource.ofText text).holds_cursor 0)

end Cookbook
