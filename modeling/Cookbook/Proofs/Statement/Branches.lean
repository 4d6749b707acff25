import Cookbook.Proofs.Statement.Fuel

/-!
In every parsed conditional the branch without a condition is the last one: its body goes on to the
closer, whatever words stand in it.

* `Conditional.In` finds the conditionals of a list of statements, at any depth;
* `WellBranched` says that `else` comes last in all of them;
* `Reading.Branched` is what each call of the parser keeps;
* `Program.wellBranched_ofText` is the result for whole files.
-/

namespace Cookbook

/-! ### Conditionals at any depth -/

/-- The conditional stands in the list of statements, or deeper in its blocks, branches and bodies. -/
inductive Conditional.In (c : Conditional) : List Statement → Prop
  | here {body : List Statement} (h : Statement.conditional c ∈ body) : c.In body
  | block {body : List Statement} {command : Command} {block : Block}
      (h : Statement.command command ∈ body) (hblock : command.block = some block)
      (hin : c.In block.body) : c.In body
  | branch {body : List Statement} {outer : Conditional} {b : Branch}
      (h : Statement.conditional outer ∈ body) (hb : b ∈ outer.branches) (hin : c.In b.body) :
      c.In body
  | compound {body : List Statement} {outer : Compound} (h : Statement.compound outer ∈ body)
      (hin : c.In outer.body) : c.In body

/-- No branch stands after one without a condition. -/
def ElseLast (branches : List Branch) : Prop := branches.Pairwise fun b _ => b.word ≠ .otherwise

/-- In all conditionals of a list of statements no branch stands after one without a condition. -/
def WellBranched (body : List Statement) : Prop := ∀ c : Conditional, c.In body → ElseLast c.branches

namespace WellBranched

theorem of_subset {body more : List Statement} (h : WellBranched body) (hsub : more ⊆ body) :
    WellBranched more := by
  intro c hc
  refine h c ?_
  cases hc with
  | here hmem => exact .here (hsub hmem)
  | block hmem hblock hin => exact .block (hsub hmem) hblock hin
  | branch hmem hb hin => exact .branch (hsub hmem) hb hin
  | compound hmem hin => exact .compound (hsub hmem) hin

theorem nil : WellBranched [] := by
  intro c hc
  cases hc with
  | here hmem => exact absurd hmem List.not_mem_nil
  | block hmem => exact absurd hmem List.not_mem_nil
  | branch hmem => exact absurd hmem List.not_mem_nil
  | compound hmem => exact absurd hmem List.not_mem_nil

theorem cons {s : Statement} {rest : List Statement} (hs : WellBranched [s])
    (hrest : WellBranched rest) : WellBranched (s :: rest) := by
  have hpick : ∀ {u : Statement}, u ∈ s :: rest → u ∈ [s] ∨ u ∈ rest := by
    intro u hu
    exact (List.mem_cons.1 hu).imp_left List.mem_singleton.2
  intro c hc
  cases hc with
  | here hmem => exact (hpick hmem).elim (fun h => hs c (.here h)) fun h => hrest c (.here h)
  | block hmem hblock hin =>
    exact (hpick hmem).elim (fun h => hs c (.block h hblock hin)) fun h =>
      hrest c (.block h hblock hin)
  | branch hmem hb hin =>
    exact (hpick hmem).elim (fun h => hs c (.branch h hb hin)) fun h => hrest c (.branch h hb hin)
  | compound hmem hin =>
    exact (hpick hmem).elim (fun h => hs c (.compound h hin)) fun h => hrest c (.compound h hin)

theorem command {cmd : Command} (h : ∀ block, cmd.block = some block → WellBranched block.body) :
    WellBranched [.command cmd] := by
  intro c hc
  cases hc with
  | here hmem => simp at hmem
  | block hmem hblock hin =>
    obtain rfl := Statement.command.inj (List.mem_singleton.1 hmem)
    exact h _ hblock c hin
  | branch hmem => simp at hmem
  | compound hmem => simp at hmem

theorem conditional {cond : Conditional} (hlast : ElseLast cond.branches)
    (h : ∀ b ∈ cond.branches, WellBranched b.body) : WellBranched [.conditional cond] := by
  intro c hc
  cases hc with
  | here hmem =>
    obtain rfl := Statement.conditional.inj (List.mem_singleton.1 hmem)
    exact hlast
  | block hmem => simp at hmem
  | branch hmem hb hin =>
    obtain rfl := Statement.conditional.inj (List.mem_singleton.1 hmem)
    exact h _ hb c hin
  | compound hmem => simp at hmem

theorem compound {comp : Compound} (h : WellBranched comp.body) : WellBranched [.compound comp] := by
  intro c hc
  cases hc with
  | here hmem => simp at hmem
  | block hmem => simp at hmem
  | branch hmem => simp at hmem
  | compound hmem hin =>
    obtain rfl := Statement.compound.inj (List.mem_singleton.1 hmem)
    exact h c hin

end WellBranched

/-! ### What each call returns -/

/-- The branches are as they should be, and so is all in their bodies. -/
structure GoodBranches (branches : List Branch) : Prop where
  elseLast : ElseLast branches
  bodies : ∀ b ∈ branches, WellBranched b.body

/-- The block of the draft is as it should be. -/
def CommandDraft.Good (d : CommandDraft) : Prop :=
  ∀ block, d.block = some block → WellBranched block.body

/-- A list of statements ends at a token that stops it, no call returns a branch after an `else`, and
where only `end` may come next there are no further branches. -/
def Reading.Branched : Reading → Prop
  | ⟨.statements stop _, p⟩ =>
    WellBranched p.value ∧ listStep stop p.cursor.skipSeparators.rest = .done
  | ⟨.statement _ _, p⟩ => WellBranched [p.value]
  | ⟨.block _ _ _, p⟩ => WellBranched p.value.body
  | ⟨.branches word c, p⟩ =>
    GoodBranches p.value.1 ∧
      (listStep (branchStop word .otherwise) c.skipSeparators.rest = .done → p.value.1 = [])
  | ⟨.conditional _ _, p⟩ => WellBranched [.conditional p.value]
  | ⟨.compound _ _, p⟩ => WellBranched p.value.body
  | ⟨.command _ _ d _, p⟩ => d.Good → WellBranched [.command p.value]

theorem wellBranched_closeBody {src : TokenSource} {isCloser : Token → Bool} {opener : Token}
    {fault : Fault} {p : Parsed (List Statement)} (h : WellBranched p.value) :
    WellBranched (closeBody src isCloser opener fault p).body := by
  rcases closeBody_cases src isCloser opener fault p with ⟨t, -, -, he⟩ | ⟨-, he⟩
  · rw [he]
    exact h
  · rw [he]
    exact h.of_subset (List.takeWhile_prefix _).subset

namespace GoodBranches

theorem nil : GoodBranches [] := ⟨List.Pairwise.nil, fun _ h => absurd h List.not_mem_nil⟩

theorem cons {b : Branch} {rest : List Branch} (hb : WellBranched b.body)
    (hword : b.word = .otherwise → rest = []) (hrest : GoodBranches rest) :
    GoodBranches (b :: rest) where
  elseLast := by
    refine List.pairwise_cons.2 ⟨?_, hrest.elseLast⟩
    intro b' hb' hother
    rw [hword hother] at hb'
    exact absurd hb' List.not_mem_nil
  bodies := by
    intro b' hb'
    rcases List.mem_cons.1 hb' with rfl | hb'
    · exact hb
    · exact hrest.bodies b' hb'

theorem resync {src : TokenSource} {opener : Token} {branches : List Branch}
    (h : GoodBranches branches) : GoodBranches (resyncBranches src opener branches).1 := by
  induction branches with
  | nil => exact h
  | cons b more ih =>
    have hb := h.bodies b List.mem_cons_self
    cases more with
    | nil => exact .cons (hb.of_subset (List.takeWhile_prefix _).subset) (fun _ => rfl) .nil
    | cons b' more =>
      obtain ⟨hword, hlast⟩ := List.pairwise_cons.1 h.elseLast
      refine .cons hb (fun hother => absurd hother (hword b' List.mem_cons_self)) (ih ⟨hlast, ?_⟩)
      exact fun x hx => h.bodies x (List.mem_cons_of_mem _ hx)

end GoodBranches

namespace CommandDraft

theorem good_empty : CommandDraft.empty.Good := fun _ h => absurd h (by simp [empty])

theorem Good.addBlock {d : CommandDraft} {block : Block} (hd : d.Good)
    (hblock : WellBranched block.body) : (d.addBlock block).Good := by
  unfold CommandDraft.addBlock
  split
  · intro b hb
    obtain rfl := Option.some.inj hb
    exact hblock
  · exact hd

theorem Good.finish {d : CommandDraft} (hd : d.Good) (src : TokenSource) (first : Token) (start : Nat)
    (c : Cursor) : WellBranched [.command (d.finish src first start c).value] := by
  refine .command ?_
  cases hopeners : d.openers with
  | nil =>
    rw [finish_nil src first start c hopeners]
    exact hd
  | cons unclosed more =>
    rw [finish_cons src first start c hopeners]
    exact hd

end CommandDraft

theorem Token.isKeyword_of_end {t : Token} (h : t.isKeyword ["end"] = true) (values : List Text) :
    t.isKeyword values = values.contains "end" := by
  obtain ⟨v, hv, hcontent⟩ := Token.isOneOf_iff.1 h
  obtain rfl := List.mem_singleton.1 hv
  unfold Token.isKeyword Token.isOneOf
  rw [hcontent]
  rfl

/-- Where a list that only `end` stops has ended, a conditional ends, too. -/
theorem branchStep_ne_branch {word : ConditionalWord} {tokens : List Token}
    (h : listStep (branchStop word .otherwise) tokens = .done) (branchWord : BranchWord) (t : Token) :
    branchStep word tokens ≠ .branch branchWord t := by
  cases tokens with
  | nil => exact BranchStep.noConfusion
  | cons u rest =>
    have hkey := Token.isKeyword_of_end (t := u) (listStep_done h)
    have hstep : branchStep word (u :: rest) = .close u := by
      cases word <;> simp only [branchStep, branchWord?, hkey] <;> rfl
    rw [hstep]
    exact BranchStep.noConfusion

/-- After the body of an `else` there is the closer or nothing. -/
theorem goodBranches_branch {word : ConditionalWord} {branchWord : BranchWord} {condition : List Token}
    {start : Nat} {c : Cursor} {body : Parsed (List Statement)} {more : Parsed (List Branch × Option Token)}
    (hbody : Reading.Branched ⟨.statements (branchStop word branchWord) c, body⟩)
    (hmore : Reading.Branched ⟨.branches word body.cursor, more⟩) :
    GoodBranches (⟨branchWord, condition, body.value, start⟩ :: more.value.1) := by
  obtain ⟨hbranches, hnone⟩ := hmore
  refine .cons hbody.1 ?_ hbranches
  rintro rfl
  exact hnone hbody.2

namespace ParserCall

variable {src : TokenSource}

theorem statements_branched (stop : Token → Bool) (c : Cursor) :
    (statements stop c).Keeps src Reading.Branched := by
  unfold Keeps
  rw [script]
  cases h : listStep stop c.skipSeparators.rest with
  | done =>
    refine ⟨.nil, ?_⟩
    rw [c.skipSeparators_skipSeparators]
    exact h
  | stray t => exact fun more hmore => hmore.2
  | pass => exact fun more hmore => hmore.2
  | statement t =>
    intro first hfirst more hmore
    exact ⟨.cons hfirst.2 hmore.2.1, hmore.2.2⟩

theorem statement_branched (t : Token) (c : Cursor) : (statement t c).Keeps src Reading.Branched := by
  unfold Keeps
  rw [script]
  split_ifs
  · exact fun p hp => hp.2
  · exact fun p hp => WellBranched.compound hp.2
  · exact fun p hp => hp.2 CommandDraft.good_empty

theorem branches_branched (word : ConditionalWord) (c : Cursor) :
    (branches word c).Keeps src Reading.Branched := by
  unfold Keeps
  rw [script]
  cases h : branchStep word c.skipSeparators.rest with
  | done => exact ⟨.nil, fun _ => rfl⟩
  | close t => exact ⟨.nil, fun _ => rfl⟩
  | branch branchWord t =>
    intro body hbody more hmore
    exact ⟨goodBranches_branch hbody.2 hmore.2, fun hdone => absurd h (branchStep_ne_branch hdone _ _)⟩

theorem conditional_branched (opener : Token) (c : Cursor) :
    (conditional opener c).Keeps src Reading.Branched := by
  have hclose : ∀ read : Parsed (List Branch × Option Token), GoodBranches read.value.1 →
      WellBranched [.conditional (closeConditional src opener c.index (c.next.line false).1 read).value] := by
    intro read hgood
    unfold closeConditional
    split
    · exact .conditional hgood.elseLast hgood.bodies
    · exact .conditional hgood.resync.elseLast hgood.resync.bodies
  unfold Keeps
  rw [script]
  dsimp only
  split_ifs
  · exact fun read hread => hclose read hread.2.1
  · exact fun body hbody more hmore => hclose _ (goodBranches_branch hbody.2 hmore.2)

theorem command_branched (first : Token) (start : Nat) (d : CommandDraft) (c : Cursor) :
    (command first start d c).Keeps src Reading.Branched := by
  unfold Keeps
  rw [script]
  cases d.step c.rest with
  | done => exact fun hd => hd.finish src first start c
  | modifier t =>
    intro hd
    have hgood : (d.addModifier t (c.next.line false).1).Good := hd
    exact hgood.finish src first start _
  | skip => exact fun more hmore => hmore.2
  | push t => exact fun more hmore => hmore.2
  | conditional t => exact fun nested _ more hmore => hmore.2
  | compound t => exact fun nested _ more hmore => hmore.2
  | block t kind =>
    intro block hblock
    dsimp only
    split
    · exact fun more hmore hd => hmore.2 (hd.addBlock hblock.2)
    · exact fun hd => (hd.addBlock hblock.2).finish src first start _

theorem keeps_branched (call : ParserCall) : call.Keeps src Reading.Branched := by
  cases call with
  | statements stop c => exact statements_branched stop c
  | statement t c => exact statement_branched t c
  | block opener kind c => exact fun body hbody => wellBranched_closeBody hbody.2.1
  | branches word c => exact branches_branched word c
  | conditional opener c => exact conditional_branched opener c
  | compound opener c => exact fun body hbody => wellBranched_closeBody hbody.2.1
  | command first start d c => exact command_branched first start d c

end ParserCall

/-- What is read of a whole file ends with the file, and `else` comes last in it. -/
theorem TokenSource.branched_parsed (src : TokenSource) :
    Reading.Branched ⟨.statements (fun _ => false) (src.cursor 0), src.parsed⟩ := by
  obtain ⟨log, hends⟩ := src.exists_endsIn_parsed
  exact hends.satisfies (fun call _ => call.keeps_branched) (src.holds_cursor 0)

/-- In every parsed file `else` comes last. -/
theorem Program.wellBranched_ofText (text : Text) :
    WellBranched (Program.ofText text).statements := by
  rw [Program.statements_ofText]
  exact (TokenSource.ofText text).branched_parsed.1

end Cookbook
